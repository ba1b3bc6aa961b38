import Formula.Token.Kind

/-!
# Parse errors — what a parse reports

A **fault** is one thing that a parse found wrong: its cause and the byte offset of the token where it
was found. The cause knows the wording of its message and its **kind**, one of five.

A parse goes on after a fault, so it may find several. What it returns in the end is one `ParseError`:
kind and offset are those of the first fault, and `kinds` holds the kinds of all.
-/

namespace Formula

/-- The most arguments that a call may have. -/
def maxArguments : Nat := 256

/-- The deepest level of nesting that a parse enters. -/
def maxNesting : Nat := 256

/-- **The kind of a fault.** -/
inductive ParseErrorKind
  | unexpectedToken
  | expectedExpression
  | unexpectedEndOfInput
  | tooManyArguments
  | nestingTooDeep
deriving DecidableEq, Repr, Inhabited

namespace ParseErrorKind

def index : ParseErrorKind → Nat
  | unexpectedToken => 0
  | expectedExpression => 1
  | unexpectedEndOfInput => 2
  | tooManyArguments => 3
  | nestingTooDeep => 4

def all : List ParseErrorKind :=
  [unexpectedToken, expectedExpression, unexpectedEndOfInput, tooManyArguments, nestingTooDeep]

instance : Flag ParseErrorKind where
  index := index
  members := all
  index_inj a b := by cases a <;> cases b <;> simp [index]

def text : ParseErrorKind → String
  | unexpectedToken => "Unexpected token"
  | expectedExpression => "Expected expression"
  | unexpectedEndOfInput => "Unexpected end of input"
  | tooManyArguments => "Too many arguments"
  | nestingTooDeep => "Expression nested too deeply"

end ParseErrorKind

/-- **The kinds of faults that a parse found.** -/
abbrev ParseErrorKinds := FlagSet ParseErrorKind

namespace ParseErrorKinds

def text (s : ParseErrorKinds) : String := FlagSet.text s ", " ParseErrorKind.text

end ParseErrorKinds

/-- **What is wrong in one place.** -/
inductive FaultCause
  /-- One of some kinds of tokens was needed, and another one was found. -/
  | expected (wanted : TokenSet) (found : TokenKind)
  /-- An operand was needed, and a token was found that begins none. -/
  | noOperand (found : TokenKind)
  | tooManyArguments
  /-- An operand or operator lies deeper than a parse may go. -/
  | tooDeep
deriving DecidableEq, Repr

namespace FaultCause

/-- The kind of a fault at a token: where the source has ended, its end is what is wrong. -/
def kindAt (found : TokenKind) (otherwise : ParseErrorKind) : ParseErrorKind :=
  if found = .endOfInput then .unexpectedEndOfInput else otherwise

def kind : FaultCause → ParseErrorKind
  | expected _ found => kindAt found .unexpectedToken
  | noOperand found => kindAt found .expectedExpression
  | tooManyArguments => .tooManyArguments
  | tooDeep => .nestingTooDeep

def message : FaultCause → String
  | expected wanted found => s!"Expected '{wanted.text}', but got '{found.text}'"
  | noOperand found => s!"Expected expression but got: '{found.text}'."
  | tooManyArguments => s!"Function call takes at most {maxArguments} arguments"
  | tooDeep => s!"Expression nests deeper than {maxNesting} levels"

end FaultCause

/-- **One thing that a parse found wrong.** -/
structure Fault where
  cause : FaultCause
  /-- Byte offset of the token where it was found. -/
  offset : Nat
deriving DecidableEq, Repr

/-- **A failed parse**: its first fault, and the kinds of all. -/
structure ParseError where
  kind : ParseErrorKind
  kinds : ParseErrorKinds
  offset : Nat
deriving DecidableEq, Repr

namespace ParseError

def single (kind : ParseErrorKind) (offset : Nat) : ParseError := ⟨kind, FlagSet.single kind, offset⟩

/-- The error with one more kind, where there is an error; otherwise the error of that fault alone. -/
def record (e : Option ParseError) (f : Fault) : ParseError :=
  match e with
  | some e => { e with kinds := e.kinds.insert f.cause.kind }
  | none => single f.cause.kind f.offset

/-- **The error that some faults make**, none when there is no fault. -/
def ofFaults (fs : List Fault) : Option ParseError := fs.foldl (fun e f => some (record e f)) none

/-- **The error of some faults** has kind and place of the first one, and the kinds of all. -/
theorem ofFaults_cons (f : Fault) (fs : List Fault) :
    ofFaults (f :: fs) =
      some ⟨f.cause.kind, FlagSet.ofList ((f :: fs).map (·.cause.kind)), f.offset⟩ := by
  have later (fs : List Fault) (kind : ParseErrorKind) (kinds : ParseErrorKinds) (offset : Nat) :
      fs.foldl (fun e f => some (record e f)) (some ⟨kind, kinds, offset⟩) =
        some ⟨kind, (fs.map (·.cause.kind)).foldl FlagSet.insert kinds, offset⟩ := by
    induction fs generalizing kinds with
    | nil => rfl
    | cons f fs ih => exact ih _
  have single : FlagSet.single f.cause.kind = FlagSet.empty.insert f.cause.kind := by
    rw [FlagSet.single, FlagSet.insert, FlagSet.empty, Nat.zero_or]
  rw [List.map_cons, FlagSet.ofList, List.foldl_cons, ← single]
  exact later fs f.cause.kind _ f.offset

def message (e : ParseError) : String := s!"Error at offset {e.offset}: {e.kind.text}."

end ParseError

end Formula
