import Formula.Token.Basic
import Formula.Token.Numeral

/-!
# Scanning — a source as its tokens

White space is any of six ASCII characters and separates tokens without being one. A **name** is a
letter or underscore and all letters, digits and underscores after it; a **numeral** begins with a digit
or a point and reaches as far as `numeralLength` says; every operator and mark of punctuation is one
character. Letters and digits are ASCII's. What begins no token stops the scan there, for good.

`step` reads one token, or the stop. `Tokens.ofSource` steps to the stop and keeps what it meets. Each
token takes at least one character (`step_shorter`), so the scan ends.
-/

namespace Formula

/-- The six characters that separate tokens: space, tab, line feed, vertical tab, form feed, carriage
return. -/
def isBlank (c : Char) : Bool :=
  c == ' ' || c == '\t' || c == '\n' || c == '\x0b' || c == '\x0c' || c == '\r'

/-- A character that a name may begin with. -/
def isNameStart (c : Char) : Bool := c.isAlpha || c == '_'

/-- A character that a name may go on with. -/
def isNamePart (c : Char) : Bool := c.isAlphanum || c == '_'

def symbolKind? : Char → Option TokenKind
  | '+' => some .plus
  | '-' => some .minus
  | '*' => some .star
  | '/' => some .slash
  | '%' => some .percent
  | '^' => some .caret
  | '(' => some .openParen
  | ')' => some .closeParen
  | ',' => some .comma
  | _ => none

/-- **The token that a character begins**, given the characters after it: its kind and how many of those
it takes. -/
def wordAt (c : Char) (rest : List Char) : Option (TokenKind × Nat) :=
  match symbolKind? c with
  | some kind => some (kind, 0)
  | none =>
    if isNameStart c then some (.identifier, (rest.takeWhile isNamePart).length)
    else if c.isDigit || c == '.' then
      match numeralLength (c :: rest) with
      | 0 => none
      | more + 1 => some (.number, more)
    else none

inductive Scanned
  /-- A word, and the source after it. -/
  | word (t : Token) (offset : Nat) (rest : List Char)
  | stop (s : Stop)
deriving Repr

/-- **One step of a scan**: the first token of a source that begins at `offset`. -/
def step (offset : Nat) : List Char → Scanned
  | [] => .stop (.endOfInput offset)
  | c :: rest =>
    if isBlank c then step (offset + c.utf8Size) rest
    else
      match wordAt c rest with
      | none => .stop (.invalid offset (String.ofList (c :: rest)))
      | some (kind, more) =>
        let lexeme := String.ofList (c :: rest.take more)
        .word ⟨kind, offset, lexeme⟩ (offset + lexeme.utf8ByteSize) (rest.drop more)

/-- **A word takes at least one character.** -/
theorem step_shorter : ∀ {cs : List Char} {offset : Nat} {t : Token} {offset' : Nat} {rest : List Char},
    step offset cs = .word t offset' rest → rest.length < cs.length
  | [], _, _, _, _, h => by simp only [step, reduceCtorEq] at h
  | c :: cs, offset, t, offset', rest, h => by
    unfold step at h
    split at h
    · have := step_shorter h
      simp only [List.length_cons]; omega
    · split at h
      · exact absurd h (by simp only [reduceCtorEq, not_false_eq_true])
      · injection h with _ _ h
        rw [← h, List.length_drop, List.length_cons]; omega

def Tokens.ofChars (offset : Nat) (cs : List Char) : Tokens :=
  match _h : step offset cs with
  | .stop s => ⟨[], s⟩
  | .word t offset' rest => (ofChars offset' rest).cons t
termination_by cs.length
decreasing_by exact step_shorter _h

/-- **The tokens of a source.** -/
def Tokens.ofSource (source : String) : Tokens := Tokens.ofChars 0 source.toList

end Formula
