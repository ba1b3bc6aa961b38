/-!
# Spans — where in the source a thing stands

A **span** is a range of UTF-8 bytes: the offset of its first byte and its length. Tokens, tree nodes
and compile errors carry one, so that a message can point back at the text it is about. A span knows
nothing of a source: `Span.slice` asks a source for the text, and a span that does not fit, because it
ends past the source or begins or ends inside a character, has the empty text.

The source is read as its list of characters, each as wide as its UTF-8 encoding. `dropBytes` and
`takeBytes` are the two halves of a slice on that list; both fail where a character would be cut.
-/

namespace Formula

/-- **A byte range of a source.** -/
structure Span where
  offset : Nat
  length : Nat
deriving DecidableEq, Repr, Inhabited

/-- The characters after the first `n` bytes; `none` when there are fewer bytes, or when the cut falls
inside a character. -/
def dropBytes : List Char → Nat → Option (List Char)
  | cs, 0 => some cs
  | [], _ + 1 => none
  | c :: cs, n + 1 => if c.utf8Size ≤ n + 1 then dropBytes cs (n + 1 - c.utf8Size) else none

/-- The characters that make up the first `n` bytes; `none` under the same conditions. -/
def takeBytes : List Char → Nat → Option (List Char)
  | _, 0 => some []
  | [], _ + 1 => none
  | c :: cs, n + 1 =>
    if c.utf8Size ≤ n + 1 then (takeBytes cs (n + 1 - c.utf8Size)).map (c :: ·) else none

namespace Span

/-- How many offsets there are: an offset is a 64-bit word. -/
def offsets : Nat := 1 <<< 64

/-- Byte offset one past the last byte, as a word. -/
def stop (s : Span) : Nat := (s.offset + s.length) % offsets

/-- The characters of `source` that the span covers, none at all when it does not fit. -/
def sliceChars (s : Span) (source : List Char) : List Char :=
  ((dropBytes source s.offset).bind (takeBytes · s.length)).getD []

/-- **The text a span covers**, empty when the span does not fit the source. -/
def slice (s : Span) (source : String) : String := String.ofList (s.sliceChars source.toList)

end Span

end Formula
