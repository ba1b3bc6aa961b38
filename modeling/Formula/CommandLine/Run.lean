import Formula.CommandLine.Answers
import Formula.CommandLine.Help
import Formula.CommandLine.Usage

/-!
# A run — from arguments and input to output

A **run** turns the arguments and the bytes of standard input into what is written and the exit code.
The bindings are made first, the variables before the constants, each in the order given; one that takes
the place of a variable is warned about. With an expression the run writes its value, or its error to
standard error, and does not look at the input. Without one it answers the lines of the input.

`plan` is all that is decided from the arguments alone. It says whether the input is wanted, so that
whoever performs the run does not wait for input without need.
-/

namespace Formula.CommandLine

/-- **What a run writes, and its exit code.** -/
structure Output where
  stdout : String
  stderr : String
  code : Nat
deriving DecidableEq, Repr

/-- The exit code of a run that went wrong. -/
def failureCode : Nat := 1

/-- The exit code of a run whose arguments cannot be understood. -/
def usageCode : Nat := 2

/-- What is said of an input that is not UTF-8. -/
def unreadableLine : String := "Failed to read standard input: stream did not contain valid UTF-8\n"

/-- **A table with a binding made**, and the warning when it takes the place of a variable. -/
def bind (constant : Bool) (s : SymbolTable × List Diagnostic) (b : Binding) : SymbolTable × List Diagnostic :=
  let warning := if (s.1.findVariable? b.name).isSome then [Diagnostic.replaced b.name] else []
  (s.1.addVariable b.name b.value constant, s.2 ++ warning)

/-- **The table that a request makes of the builtins**, and the warnings. -/
def tableOf (r : Request) : SymbolTable × List Diagnostic :=
  let s := r.variables.foldl (bind false) (SymbolTable.builtins, [])
  r.constants.foldl (bind true) s

def expressionOutput (t : SymbolTable) (quiet : Bool) (source : String) : Output :=
  let r := compileSource source t
  match r.result with
  | .ok n => ⟨shown quiet r.messages ++ valueLine Decimal.shortestText (n.valueIn t), "", 0⟩
  | .error e => ⟨shown quiet r.messages, e.message ++ "\n", failureCode⟩

/-- A transcript as it is written, after some text. -/
def Transcript.output (t : Transcript) (quiet : Bool) (before : String) : Output :=
  let stdout := before ++ String.join (t.replies.map (Reply.text quiet))
  if t.readable then ⟨stdout, "", 0⟩ else ⟨stdout, unreadableLine, failureCode⟩

def linesOutput (t : SymbolTable) (r : Request) (ls : List Line) : Output :=
  if r.table then (tableTranscript t ls).output r.quiet ""
  else (conversation t none ls).output r.quiet (helpText t)

def Output.after (o : Output) (before : String) : Output := { o with stdout := before ++ o.stdout }

/-- **What the arguments settle**: the output, or how it is to be made from the input. -/
inductive Plan
  | done (o : Output)
  | reading (answer : ByteArray → Output)

def Request.plan (r : Request) : Plan :=
  let (t, warnings) := tableOf r
  let before := shown r.quiet warnings
  match r.expression with
  | some source => .done ((expressionOutput t r.quiet source).after before)
  | none => .reading fun input => (linesOutput t r (linesOf input)).after before

/-- **The plan of some arguments.** -/
def plan (arguments : List String) : Plan :=
  match Request.read arguments with
  | .ok r => r.plan
  | .error .help => .done ⟨usageHelp, "", 0⟩
  | .error .version => .done ⟨versionLine, "", 0⟩
  | .error (.error e) => .done ⟨"", usageLine e, usageCode⟩

/-- **A run.** -/
def run (arguments : List String) (input : ByteArray) : Output :=
  match plan arguments with
  | .done o => o
  | .reading answer => answer input

end Formula.CommandLine
