import Formula.Decimal.Read
import Formula.Token.Scan

/-!
# Bindings — variables given on the command line

A **binding** is written `NAME=VALUE`, parted at the first equals sign. White space around either part
is passed over, by the definition of white space that Unicode gives. The name must be one that a formula
can use, and the value a decimal text.
-/

namespace Formula.CommandLine

/-- The characters that Unicode calls white space. -/
def isSpace (c : Char) : Bool :=
  let n := c.toNat
  (9 ≤ n && n ≤ 13) || n == 0x20 || n == 0x85 || n == 0xa0 || n == 0x1680 || (0x2000 ≤ n && n ≤ 0x200a) ||
    n == 0x2028 || n == 0x2029 || n == 0x202f || n == 0x205f || n == 0x3000

def trim (cs : List Char) : List Char := ((cs.dropWhile isSpace).reverse.dropWhile isSpace).reverse

/-- **A variable and its value.** -/
structure Binding where
  name : String
  value : Float

/-- **Why a text is no binding.** -/
inductive BindingError
  | noValue (text : String)
  | badName (name : String)
  | badValue (value : String) (cause : Decimal.ReadError)
deriving DecidableEq, Repr

def BindingError.message : BindingError → String
  | noValue text => s!"expected NAME=VALUE, got '{text}'"
  | badName name => s!"'{name}' is not a valid variable name"
  | badValue value cause => s!"invalid value '{value}': {cause.message}"

/-- Whether a text is a name that a formula can use. -/
def isName : List Char → Bool
  | [] => false
  | c :: cs => isNameStart c && cs.all isNamePart

/-- **The binding that a text writes.** -/
def Binding.read (text : String) : Except BindingError Binding :=
  let cs := text.toList
  let name := trim (cs.takeWhile (· != '='))
  match cs.dropWhile (· != '=') with
  | [] => .error (.noValue text)
  | _ :: value =>
    if isName name then
      match Decimal.readFloat (trim value) with
      | .ok x => .ok ⟨String.ofList name, x⟩
      | .error cause => .error (.badValue (String.ofList value) cause)
    else .error (.badName (String.ofList name))

end Formula.CommandLine
