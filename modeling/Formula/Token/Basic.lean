import Formula.Span
import Formula.Token.Kind

/-!
# Tokens — the words of a source and how they end

A **token** is a kind, the place where it begins and its text. A source reads as `Tokens`: the words in
order, and the one **stop** after them, which is the end of the source or the place from where nothing
can be read. The stop has a token of its own, of no length, and it is never used up: whoever takes past
the last word is handed the stop's token again and again.
-/

namespace Formula

/-- **A token**: what was recognised, where it begins, and its text. -/
structure Token where
  kind : TokenKind
  offset : Nat
  /-- The characters of the source that make up the token; none for a stop. -/
  lexeme : String
deriving DecidableEq, Repr, Inhabited

def Token.length (t : Token) : Nat := t.lexeme.utf8ByteSize

def Token.span (t : Token) : Span := ⟨t.offset, t.length⟩

/-- **How a scan stops.** -/
inductive Stop
  | endOfInput (offset : Nat)
  /-- No token begins here; `unread` is the source from here on. -/
  | invalid (offset : Nat) (unread : String)
deriving DecidableEq, Repr, Inhabited

def Stop.token : Stop → Token
  | .endOfInput offset => ⟨.endOfInput, offset, ""⟩
  | .invalid offset _ => ⟨.invalid, offset, ""⟩

/-- **A source, read**: its words in order and the stop after them. -/
structure Tokens where
  words : List Token
  stop : Stop
deriving DecidableEq, Repr, Inhabited

namespace Tokens

/-- The first token: the first word, or the stop's token when there is none. -/
def head (ts : Tokens) : Token := ts.words.headD ts.stop.token

/-- What is left after the first token; the stop stays. -/
def tail (ts : Tokens) : Tokens := { ts with words := ts.words.tail }

def cons (t : Token) (ts : Tokens) : Tokens := { ts with words := t :: ts.words }

/-- All tokens, the stop's last. -/
def toList (ts : Tokens) : List Token := ts.words ++ [ts.stop.token]

end Tokens

end Formula
