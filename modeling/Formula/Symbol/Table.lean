import Formula.Symbol.Dictionary

/-!
# Symbol tables — the names that a formula may use

A **symbol table** holds variables and functions, each kind under names of its own, so a variable and a
function may share a name. A variable has a value and may be a **constant**: a formula takes the value
of a constant when it is compiled, and reads every other variable each time it is evaluated.

A **native** function computes a value from a list of arguments. It has none when the list is shorter
than what it reads; a `Function` says how many arguments a call must have, which need not be as many as
the native reads.

The value of a variable can be set at any time (`setValue`), also that of a constant; formulas that
were compiled before do not see the new value of a constant.
-/

namespace Formula

/-- **A native function**: the value at some arguments, none when there are fewer than it reads. -/
abbrev Native := List Float → Option Float

/-- A named value. -/
structure Variable where
  value : Float
  /-- Whether formulas take the value when they are compiled. -/
  constant : Bool
deriving DecidableEq, Inhabited

/-- **A native function and the number of arguments of its calls.** -/
structure Function where
  native : Native
  arity : Nat

/-- **The names that a formula may use.** -/
structure SymbolTable where
  «variables» : Dictionary Variable
  functions : Dictionary Function

namespace SymbolTable

def empty : SymbolTable := ⟨.empty, .empty⟩

def addVariable (t : SymbolTable) (name : String) (value : Float) (constant : Bool) : SymbolTable :=
  { t with «variables» := t.variables.put name ⟨value, constant⟩ }

def addFunction (t : SymbolTable) (name : String) (native : Native) (arity : Nat) : SymbolTable :=
  { t with functions := t.functions.put name ⟨native, arity⟩ }

def findVariable? (t : SymbolTable) (name : String) : Option Variable := t.variables.find? name

def findFunction? (t : SymbolTable) (name : String) : Option Function := t.functions.find? name

/-- **The current value of a variable**, zero for a name that has none. -/
def value (t : SymbolTable) (name : String) : Float :=
  match t.findVariable? name with
  | some v => v.value
  | none => 0

/-- **The table with the value of a variable set**; a name without variable is left alone. -/
def setValue (t : SymbolTable) (name : String) (value : Float) : SymbolTable :=
  match t.findVariable? name with
  | some v => t.addVariable name value v.constant
  | none => t

def setValues (t : SymbolTable) (writes : List (String × Float)) : SymbolTable :=
  writes.foldl (fun t w => t.setValue w.1 w.2) t

end SymbolTable

end Formula
