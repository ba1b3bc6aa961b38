import Formula.Binary64.Basic
import Formula.Decimal.Basic

/-!
# Reading decimals — the double that a text denotes

A decimal text is a sign or none, then digits with at most one point and at least one digit, then
perhaps an exponent: `e` or `E`, a sign or none, and digits. In place of the digits it may say `inf`,
`infinity` or `nan`, in letters of either case. It denotes the double nearest to the number written, of
two equally near the one with the even last bit.

`Literal` is a text taken apart; its value is `coefficient · 10 ^ exponent`. Before either number is
formed the size of the value is compared with the range of the doubles, so an exponent of a thousand
digits costs no more than its digits. The digits of an exponent are added up only while their value is
below 65536, which is far past every double.
-/

namespace Formula.Decimal

open Binary64

/-- **A decimal number as written**, without its sign. -/
structure Literal where
  /-- All digits in order, without the zeros that begin them. -/
  digits : List Char
  /-- The power of ten that they are to be multiplied by, read as one number. -/
  exponent : Int
deriving DecidableEq, Repr

def Literal.coefficient (l : Literal) : Nat := ofDigits l.digits

/-- Why a text denotes no double. -/
inductive ReadError
  | empty
  | malformed
deriving DecidableEq, Repr

def ReadError.message : ReadError → String
  | .empty => "cannot parse float from empty string"
  | .malformed => "invalid float literal"

/-- The exponent value from which on further digits are passed over. -/
def exponentCap : Nat := 65536

def exponentValue (ds : List Char) : Nat :=
  ds.foldl (fun n c => if n < exponentCap then 10 * n + (c.toNat - '0'.toNat) else n) 0

/-- A sign, when there is one, and what follows: `true` for a minus. -/
def splitSign : List Char → Bool × List Char
  | '-' :: cs => (true, cs)
  | '+' :: cs => (false, cs)
  | cs => (false, cs)

/-- The exponent that ends a number; zero when nothing is left. -/
def readExponent? : List Char → Option Int
  | [] => some 0
  | c :: cs =>
    if c = 'e' ∨ c = 'E' then
      let (negative, ds) := splitSign cs
      if !ds.isEmpty && ds.all Char.isDigit then
        let n : Int := exponentValue ds
        some (if negative then -n else n)
      else none
    else none

/-- **A number without sign**, taken apart. -/
def Literal.read? (cs : List Char) : Option Literal :=
  let whole := cs.takeWhile Char.isDigit
  let rest := cs.dropWhile Char.isDigit
  let (fraction, rest) :=
    match rest with
    | '.' :: ds => (ds.takeWhile Char.isDigit, ds.dropWhile Char.isDigit)
    | _ => ([], rest)
  if whole.isEmpty && fraction.isEmpty then none
  else (readExponent? rest).map fun e => ⟨(whole ++ fraction).dropWhile (· == '0'), e - fraction.length⟩

/-- The exponent of ten above which every number overflows, and below which every number vanishes. -/
def overflowsAt : Int := 310
@[inherit_doc overflowsAt] def vanishesAt : Int := -330

/-- **The double nearest to a number**, with the given sign. -/
def Literal.toFloat (negative : Bool) (l : Literal) : Float :=
  let size := l.digits.length + l.exponent
  if l.digits.isEmpty ∨ size < vanishesAt then ofRank negative 0
  else if overflowsAt < size then infinity negative
  else ofRatio negative (l.coefficient * tens l.exponent.toNat) (tens (-l.exponent).toNat)

def infinityWords : List (List Char) := ["inf".toList, "infinity".toList]

def nanWord : List Char := "nan".toList

/-- **The double that a text denotes.** -/
def readFloat (cs : List Char) : Except ReadError Float :=
  if cs.isEmpty then .error .empty
  else
    let (negative, body) := splitSign cs
    let word := body.map Char.toLower
    if infinityWords.contains word then .ok (infinity negative)
    else if word = nanWord then .ok nan
    else
      match Literal.read? body with
      | some l => .ok (l.toFloat negative)
      | none => .error .malformed

end Formula.Decimal
