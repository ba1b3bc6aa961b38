import Formula.CommandLine.Binding

/-!
# Arguments — what the command line asks for

The options are `--var` and `--const`, which take a binding and may be repeated; the flags `-t` or
`--table`, `-q` or `--quiet`, `-h` or `--help`, and `-V` or `--version`; and one argument that is not an
option, the expression. A binding is attached with an equals sign or is the next argument. Short flags
may be joined. After `--` nothing is an option, and a dash alone never is.

The arguments are read from the left and the first error ends the reading. A binding that is an argument
of its own is **pending** until the next argument that is understood, and only then is it read; so an
argument that is not understood is the error even when the binding before it is a bad one.
-/

namespace Formula.CommandLine

inductive BindingKind
  | variable | constant
deriving DecidableEq, Repr

def BindingKind.name : BindingKind → String
  | .variable => "--var"
  | .constant => "--const"

inductive Switch
  | table | quiet | help | version
deriving DecidableEq, Repr

def Switch.name : Switch → String
  | .table => "--table"
  | .quiet => "--quiet"
  | .help => "--help"
  | .version => "--version"

/-- **Why the arguments cannot be understood.** -/
inductive ArgumentError
  | unexpected (argument : String)
  | noBinding (option : BindingKind)
  | badBinding (text : String) (option : BindingKind) (cause : BindingError)
  | repeated (switch : Switch)
  | attached (value : String) (switch : Switch)
deriving DecidableEq, Repr

/-- **What the command line asks for.** -/
structure Request where
  «variables» : List Binding := []
  constants : List Binding := []
  /-- Whether each line is to be answered by its value alone. -/
  table : Bool := false
  /-- Whether messages are dropped. -/
  quiet : Bool := false
  expression : Option String := none

/-- Why the reading of arguments ends before their end. -/
inductive Exit
  | help
  | version
  | error (e : ArgumentError)
deriving DecidableEq, Repr

/-- A binding option that has been named, and its text when that has come. -/
structure Pending where
  option : BindingKind
  text : Option String

/-- **Arguments half read.** -/
structure Draft where
  request : Request := {}
  pending : Option Pending := none
  /-- Whether nothing is an option any more. -/
  plain : Bool := false

namespace Draft

def bind (d : Draft) (kind : BindingKind) (text : String) : Except Exit Draft :=
  match Binding.read text with
  | .error cause => .error (.error (.badBinding text kind cause))
  | .ok b =>
    match kind with
    | .variable => .ok { d with request := { d.request with «variables» := d.request.variables ++ [b] } }
    | .constant => .ok { d with request := { d.request with constants := d.request.constants ++ [b] } }

/-- **The draft with nothing pending**; the binding that was pending is read now. -/
def settle (d : Draft) : Except Exit Draft :=
  match d.pending with
  | none => .ok d
  | some ⟨kind, none⟩ => .error (.error (.noBinding kind))
  | some ⟨kind, some text⟩ => bind { d with pending := none } kind text

def switch (d : Draft) (s : Switch) : Except Exit Draft := do
  let d ← d.settle
  match s with
  | .help => .error .help
  | .version => .error .version
  | .table =>
    if d.request.table then .error (.error (.repeated .table))
    else .ok { d with request := { d.request with table := true } }
  | .quiet =>
    if d.request.quiet then .error (.error (.repeated .quiet))
    else .ok { d with request := { d.request with quiet := true } }

def switchOf? : Char → Option Switch
  | 't' => some .table
  | 'q' => some .quiet
  | 'h' => some .help
  | 'V' => some .version
  | _ => none

def short (d : Draft) : List Char → Except Exit Draft
  | [] => .ok d
  | c :: cs =>
    match switchOf? c with
    | none => .error (.error (.unexpected (String.ofList ['-', c])))
    | some s => do
      let d ← d.switch s
      d.short cs

/-- An option that takes a binding, with the binding attached or not. -/
def option (d : Draft) (kind : BindingKind) (attached : Option String) : Except Exit Draft := do
  let d ← d.settle
  match attached with
  | some text => d.bind kind text
  | none => .ok { d with pending := some ⟨kind, none⟩ }

/-- A long flag, with a value attached or not. -/
def flag (d : Draft) (s : Switch) (attached : Option String) : Except Exit Draft :=
  match attached with
  | some value => .error (.error (.attached value s))
  | none => d.switch s

/-- A long option: the text after the two dashes. -/
def long (d : Draft) (cs : List Char) : Except Exit Draft :=
  let name := String.ofList (cs.takeWhile (· != '='))
  let attached := match cs.dropWhile (· != '=') with
    | [] => none
    | _ :: value => some (String.ofList value)
  if name = "var" then d.option .variable attached
  else if name = "const" then d.option .constant attached
  else if name = "table" then d.flag .table attached
  else if name = "quiet" then d.flag .quiet attached
  else if name = "help" then d.flag .help attached
  else if name = "version" then d.flag .version attached
  else .error (.error (.unexpected ("--" ++ name)))

def positional (d : Draft) (text : String) : Except Exit Draft :=
  match d.request.expression with
  | some _ => .error (.error (.unexpected text))
  | none => do
    let d ← d.settle
    return { d with request := { d.request with expression := some text } }

/-- A text that is no option: the binding that is waited for, or an argument. -/
def value (d : Draft) (text : String) : Except Exit Draft :=
  match d.pending with
  | some ⟨kind, none⟩ => .ok { d with pending := some ⟨kind, some text⟩ }
  | _ => d.positional text

/-- **One argument.** -/
def argument (d : Draft) (text : String) : Except Exit Draft :=
  if d.plain then d.positional text
  else
    match text.toList with
    | ['-', '-'] => .ok { d with plain := true }
    | '-' :: '-' :: cs => d.long cs
    | '-' :: c :: cs => d.short (c :: cs)
    | _ => d.value text

end Draft

/-- **The request that the arguments make.** -/
def Request.read (arguments : List String) : Except Exit Request := do
  let d ← arguments.foldlM Draft.argument {}
  let d ← d.settle
  return d.request

end Formula.CommandLine
