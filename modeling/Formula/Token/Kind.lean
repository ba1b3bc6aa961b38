import Formula.FlagSet

/-!
# Token kinds — what a lexical token can be

A token's **kind** says what was recognised and carries nothing else; the text of a token stands beside
it. Two kinds mark the end of a scan: `endOfInput`, where the source is used up, and `invalid`, where no
token begins. `blank` is the white space between tokens, which a scan skips: it has a bit and a text,
but no set lists it.

A `TokenSet` is what a place in the grammar allows; its text is the choice a message offers, as in
`+ or -`.
-/

namespace Formula

/-- **The kind of a lexical token.** -/
inductive TokenKind
  | number | identifier
  | plus | minus | star | slash | percent | caret
  | openParen | closeParen | comma
  | endOfInput | invalid | blank
deriving DecidableEq, Repr, Inhabited

namespace TokenKind

def index : TokenKind → Nat
  | number => 0
  | identifier => 1
  | plus => 2
  | minus => 3
  | star => 4
  | slash => 5
  | percent => 6
  | caret => 7
  | openParen => 8
  | closeParen => 9
  | comma => 10
  | endOfInput => 11
  | invalid => 12
  | blank => 13

/-- Every kind that a scan hands out, in order. -/
def scanned : List TokenKind :=
  [number, identifier, plus, minus, star, slash, percent, caret, openParen, closeParen, comma, endOfInput,
    invalid]

instance : Flag TokenKind where
  index := index
  members := scanned
  index_inj a b := by cases a <;> cases b <;> simp [index]

/-- How a message spells a kind. -/
def text : TokenKind → String
  | number => "number"
  | identifier => "identifier"
  | plus => "+"
  | minus => "-"
  | star => "*"
  | slash => "/"
  | percent => "%"
  | caret => "^"
  | openParen => "("
  | closeParen => ")"
  | comma => ","
  | endOfInput => "end of input"
  | invalid => "invalid"
  | blank => "whitespace"

end TokenKind

/-- **The kinds that a place allows.** -/
abbrev TokenSet := FlagSet TokenKind

namespace TokenSet

/-- The choice that a message offers. -/
def text (s : TokenSet) : String := FlagSet.text s " or " TokenKind.text

end TokenSet

end Formula
