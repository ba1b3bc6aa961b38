import Formula.Expr.Basic
import Formula.Node.Fold

/-!
# Compiling — names resolved, constants folded

Compiling an expression against a symbol table resolves each name and folds what is constant. A name of a
constant variable becomes its value at that moment, the name of any other variable a cell to read, and
the name of a function its native.

A name that cannot be resolved, or a call with the wrong number of arguments, ends the compilation. The
parts of an expression are taken from left to right, and a call is checked before its arguments: the
function must be known, then the number of arguments right, then not too large. The first error met is
the one returned. An error has the span of the name that it is about.
-/

namespace Formula

/-- **Why an expression does not compile.** -/
inductive CompileError
  | unknownVariable (name : String) (span : Span)
  | unknownFunction (name : String) (span : Span)
  | argumentMismatch (name : String) (wanted given : Nat) (span : Span)
  | tooManyArguments (name : String) (most given : Nat) (span : Span)
  /-- The native function reads more arguments than its calls have. -/
  | missingArgument (name : String) (span : Span)
deriving DecidableEq, Repr

namespace CompileError

def name : CompileError → String
  | unknownVariable n _ => n
  | unknownFunction n _ => n
  | argumentMismatch n _ _ _ => n
  | tooManyArguments n _ _ _ => n
  | missingArgument n _ => n

def span : CompileError → Span
  | unknownVariable _ s => s
  | unknownFunction _ s => s
  | argumentMismatch _ _ _ s => s
  | tooManyArguments _ _ _ s => s
  | missingArgument _ s => s

/-- What an error says, without the place. -/
def reason : CompileError → String
  | unknownVariable name _ => s!"Unknown variable '{name}'."
  | unknownFunction name _ => s!"Unknown function '{name}'."
  | argumentMismatch name wanted given _ =>
    s!"Function '{name}' expects {wanted} arguments, but got {given}."
  | tooManyArguments name most given _ =>
    s!"Function '{name}' is called with {given} arguments, at most {most} are supported."
  | missingArgument name _ => s!"Function '{name}' reads an argument that its calls do not have."

def message (e : CompileError) : String := s!"Error at offset {e.span.offset}: {e.reason}"

end CompileError

def resolve (t : SymbolTable) (name : String) (span : Span) : Except CompileError Node :=
  match t.findVariable? name with
  | none => .error (.unknownVariable name span)
  | some v => .ok (if v.constant then .number v.value else .cell name)

/-- The native of a call, when its function is known and takes the arguments given. -/
def callee (t : SymbolTable) (name : String) (given : Nat) (span : Span) : Except CompileError Native :=
  match t.findFunction? name with
  | none => .error (.unknownFunction name span)
  | some f =>
    if given ≠ f.arity then .error (.argumentMismatch name f.arity given span)
    else if maxArguments < given then .error (.tooManyArguments name maxArguments given span)
    else .ok f.native

mutual
/-- **An expression compiled against a table.** -/
def Expr.compile (t : SymbolTable) : Expr → Except CompileError Node
  | .number v _ => .ok (.number v)
  | .identifier name span => resolve t name span
  | .unary s e _ => do
    let n ← e.compile t
    return Node.signed s n
  | .binary op l r _ => do
    let l ← l.compile t
    let r ← r.compile t
    return Node.operation op l r
  | .call name as span => do
    let f ← callee t name as.length span
    let args ← compileAll t as
    match Node.calling f args with
    | some n => return n
    | none => throw (.missingArgument name span)
def compileAll (t : SymbolTable) : List Expr → Except CompileError (List Node)
  | [] => .ok []
  | e :: es => do
    let n ← e.compile t
    let ns ← compileAll t es
    return n :: ns
end

end Formula
