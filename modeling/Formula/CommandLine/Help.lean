import Formula.Decimal.Shortest
import Formula.Symbol.Table

/-!
# Help — what a conversation begins with

The help lists the functions with their numbers of arguments, the constants, the variables with their
values when there are any, and the operators. Each listing of names is in the order of their texts.
-/

namespace Formula.CommandLine

def sorted (texts : List String) : List String := texts.mergeSort fun a b => !decide (b < a)

/-- A heading and its lines, one column in. -/
def listing (heading : String) (texts : List String) : String :=
  "\n" ++ heading ++ ":\n" ++ String.join (texts.map fun s => "\t" ++ s ++ "\n")

def functionTexts (t : SymbolTable) : List String :=
  sorted (t.functions.entries.map fun (name, f) => name ++ "/" ++ Nat.repr f.arity)

def constantTexts (t : SymbolTable) : List String :=
  sorted ((t.variables.entries.filter fun (_, v) => v.constant).map fun (name, _) => name)

def variableTexts (t : SymbolTable) : List String :=
  sorted ((t.variables.entries.filter fun (_, v) => !v.constant).map
    fun (name, v) => name ++ " = " ++ Decimal.shortestText v.value)

/-- The operators and what they mean. -/
def operatorTexts : List String :=
  [("+", "sum"), ("-", "subtract"), ("*", "multiply"), ("/", "divide"), ("%", "remainder"), ("^", "exponent")].map
    fun (operator, meaning) => "'" ++ operator ++ "' - " ++ meaning

/-- **The help text of a table.** -/
def helpText (t : SymbolTable) : String :=
  let ordinary := variableTexts t
  listing "Available functions" (functionTexts t) ++ listing "Available constants" (constantTexts t) ++
    (if ordinary.isEmpty then "" else listing "Available variables" ordinary) ++
    listing "Available operators" operatorTexts ++
    "\nType 'ast' to show the tree of the last expression, 'q' to quit.\n\n"

end Formula.CommandLine
