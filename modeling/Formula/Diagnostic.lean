import Formula.Compile
import Formula.Parse.Parser

/-!
# Diagnostics — the messages of a run

A **diagnostic** is a message about what was read, beside the error that is returned. Each one is a
cause; the cause fixes its severity and its wording. A reader that wants no messages drops them: no
result depends on them.
-/

namespace Formula

/-- How grave a message is. -/
inductive Severity
  | info | warn | error
deriving DecidableEq, Repr, Inhabited

def Severity.text : Severity → String
  | .info => "info"
  | .warn => "warn"
  | .error => "error"

/-- **A message, by its cause.** -/
inductive Diagnostic
  /-- No token begins here; the source from here on. -/
  | unreadable (unread : String)
  | fault (cause : FaultCause)
  | unresolved (e : CompileError)
  | replaced (name : String)
  /-- There is no expression to show yet. -/
  | nothingParsed
  | notParsed (line : String)
deriving DecidableEq, Repr

namespace Diagnostic

def severity : Diagnostic → Severity
  | replaced _ => .warn
  | nothingParsed => .info
  | unreadable _ | fault _ | unresolved _ | notParsed _ => .error

def message : Diagnostic → String
  | unreadable unread => s!"Invalid syntax: {unread}"
  | fault cause => cause.message
  | unresolved e => e.message
  | replaced name => s!"Binding '{name}' replaces an existing variable"
  | nothingParsed => "No expression has been parsed yet"
  | notParsed line => s!"Failed to build AST: {line}"

def line (d : Diagnostic) : String := s!"[{d.severity.text}] {d.message}\n"

end Diagnostic

/-- The message that an event of a parse sends. -/
def Event.diagnostic? : Event → Option Diagnostic
  | .unreadable unread => some (.unreadable unread)
  | .fault f => some (.fault f.cause)
  | .took _ | .opened | .closed => none

/-- The messages of a trace, in order. -/
def messagesOf (trace : List Event) : List Diagnostic := trace.filterMap Event.diagnostic?

end Formula
