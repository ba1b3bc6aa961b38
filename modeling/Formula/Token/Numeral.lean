/-!
# Numerals — how far a numeric literal reaches

A literal is digits with at most one point, then perhaps an exponent: the mark `e` or `E`, a sign or
none, and digits. A digit stands before the mark and after it. `numeralLength` measures the literal at
the start of a text and answers zero when there is none.

The measure never shortens a literal to make it fit. A second point, a point in the exponent, or a mark
without a digit before it makes the whole text no literal, so `1.2.3` has length zero and not three. A
**phase** says what has been read; each character moves to a next phase, ends the literal, or spoils it.
-/

namespace Formula

namespace Numeral

/-- **What of a literal has been read.** -/
inductive Phase
  | start
  | whole
  | point
  | fraction
  | mark
  | sign
  | exponent
deriving DecidableEq, Repr

/-- What a character does to the literal being read. -/
inductive Move
  /-- It belongs to the literal. -/
  | next (p : Phase)
  /-- The literal ended before it. -/
  | ends
  /-- It spoils the literal. -/
  | spoils
deriving DecidableEq, Repr

/-- Whether a literal may end in this phase: the digits that it needs have been read. -/
def Phase.complete : Phase → Bool
  | whole | fraction | exponent => true
  | start | point | mark | sign => false

def Phase.afterDigit : Phase → Phase
  | start | whole => whole
  | point | fraction => fraction
  | mark | sign | exponent => exponent

def Phase.move (p : Phase) (c : Char) : Move :=
  if c.isDigit then .next p.afterDigit
  else if c = '.' then
    match p with
    | start => .next point
    | whole => .next fraction
    | _ => .spoils
  else if c = 'e' ∨ c = 'E' then
    match p with
    | whole | fraction => .next mark
    | _ => .spoils
  else if c = '+' ∨ c = '-' then
    match p with
    | mark => .next sign
    | _ => .ends
  else .ends

/-- How many characters continue the literal; `none` when it is spoiled or lacks a digit. -/
def measure (p : Phase) : List Char → Option Nat
  | [] => if p.complete then some 0 else none
  | c :: cs =>
    match p.move c with
    | .next q => (measure q cs).map (· + 1)
    | .ends => if p.complete then some 0 else none
    | .spoils => none

end Numeral

/-- **The length of the numeric literal at the start of a text**, zero when there is none. All its
characters are ASCII, so this counts bytes as well. -/
def numeralLength (cs : List Char) : Nat := (Numeral.measure .start cs).getD 0

end Formula
