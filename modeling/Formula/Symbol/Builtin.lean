import Formula.Symbol.Binomial
import Formula.Symbol.Table

/-!
# Builtins — the functions and constants that every formula may use

Fifteen functions and four constants. Trigonometric functions take radians, `log` is the natural
logarithm and `logn` takes the base first. `min` and `max` give the other argument when one is not a
number, and the second one when both are equal, which shows on zeros of different sign. `round` takes
halves away from zero.
-/

namespace Formula.Builtin

def unary (f : Float → Float) : Native
  | x :: _ => some (f x)
  | [] => none

def binary (f : Float → Float → Float) : Native
  | x :: y :: _ => some (f x y)
  | _ => none

def least (x y : Float) : Float :=
  if x.isNaN then y else if y.isNaN then x else if x < y then x else y

def greatest (x y : Float) : Float :=
  if x.isNaN then y else if y.isNaN then x else if y < x then x else y

/-- The logarithm of `x` to a base. -/
def logarithm (base x : Float) : Float := Float.log x / Float.log base

/-- The binomial coefficient of two doubles cut to whole numbers. -/
def binomial (n r : Float) : Float := Binomial.choose (Binary64.truncate n) (Binary64.truncate r)

/-- **The builtin functions**, by name. -/
def functions : List (String × Function) :=
  [("min", ⟨binary least, 2⟩),
   ("max", ⟨binary greatest, 2⟩),
   ("log", ⟨unary Float.log, 1⟩),
   ("logn", ⟨binary logarithm, 2⟩),
   ("ceil", ⟨unary Float.ceil, 1⟩),
   ("floor", ⟨unary Float.floor, 1⟩),
   ("abs", ⟨unary Float.abs, 1⟩),
   ("cos", ⟨unary Float.cos, 1⟩),
   ("sin", ⟨unary Float.sin, 1⟩),
   ("tan", ⟨unary Float.tan, 1⟩),
   ("exp", ⟨unary Float.exp, 1⟩),
   ("round", ⟨unary Float.round, 1⟩),
   ("pow", ⟨binary Float.pow, 2⟩),
   ("sqrt", ⟨unary Float.sqrt, 1⟩),
   ("ncr", ⟨binary binomial, 2⟩)]

/-- **The builtin constants**, by name. -/
def constants : List (String × Float) :=
  [("pi", Float.ofBits 0x400921fb54442d18),
   ("e", Float.ofBits 0x4005bf0a8b145769),
   ("pi_2", Float.ofBits 0x3ff921fb54442d18),
   ("pi_4", Float.ofBits 0x3fe921fb54442d18)]

end Formula.Builtin

namespace Formula.SymbolTable

/-- A table with the builtins added, in place of what it had under their names. -/
def addBuiltins (t : SymbolTable) : SymbolTable :=
  let t := Builtin.functions.foldl (fun t f => t.addFunction f.1 f.2.native f.2.arity) t
  Builtin.constants.foldl (fun t c => t.addVariable c.1 c.2 true) t

/-- **The table of the builtins.** -/
def builtins : SymbolTable := empty.addBuiltins

end Formula.SymbolTable
