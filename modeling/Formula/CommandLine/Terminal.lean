/-!
# Terminal text — what is shown of a text that steers a terminal

A text for a terminal mixes what it shows with **sequences** that steer it. `styled` writes such
sequences around a text, to set it off; `plain` takes all of them out again, for a place that is no
terminal. A text that quotes what a user has typed may hold any sequence, whole or in part, and `plain`
takes those out as well.

Escape opens a sequence, also inside another one, and cancel and substitute end one. After the escape
`[` opens a control sequence, which goes on to its final character; `]` opens a command, which goes on
to a bell; `P` opens a device string and `X`, `^` and `_` a message, whose contents no character ends.
Anything else makes a short sequence of one final character and perhaps some intermediate ones before
it. The byte 0x9c ends the contents of a device string or message, also where it is part of a
character.

Of the control characters only white space is shown. In a short sequence or a control sequence it is
shown too, and **interrupts** the sequence: what follows is shown, and the sequence goes on from the next
control character. A character that is not ASCII ends a sequence that is interrupted.
-/

namespace Formula.CommandLine.Terminal

/-- **What of a sequence has been read.** -/
inductive Mode
  | outside
  | opened
  /-- An intermediate character of a short sequence. -/
  | short
  /-- The opening of a control sequence, at least. -/
  | control
  /-- The opening of a device string. -/
  | device
  | deviceParameter
  /-- An intermediate character of a device string. -/
  | deviceShort
  /-- The opening of a message, or all of a device string that stands before its contents. -/
  | contents
  /-- The opening of a command, at least. -/
  | command
deriving DecidableEq, Repr

def isLayout (c : Char) : Bool := c == '\t' || c == '\n' || c == '\x0c' || c == '\r'

def isControl (c : Char) : Bool := c.toNat < 0x20 || c.toNat == 0x7f

/-- Whether a character has the byte that ends contents. -/
def hasTerminator (c : Char) : Bool := (String.utf8EncodeChar c).contains 0x9c

namespace Mode

/-- The mode that the character after an escape leads to. -/
def opening (c : Char) : Mode :=
  match c with
  | '[' => control
  | ']' => command
  | 'P' => device
  | 'X' | '^' | '_' => contents
  | _ => if c.toNat < 0x30 then short else outside

/-- **The mode after a character that is not shown.** -/
def after (m : Mode) (c : Char) : Mode :=
  if c == '\x1b' then opened
  else if c == '\x18' || c == '\x1a' then outside
  else if isControl c then if m = command ∧ c = '\x07' then outside else m
  else if 0x80 ≤ c.toNat then if m = contents ∧ hasTerminator c then outside else m
  else
    match m with
    | outside => outside
    | opened => opening c
    | short => if c.toNat < 0x30 then short else outside
    | control => if c.toNat < 0x40 then control else outside
    | device => if c.toNat < 0x30 then deviceShort else if c.toNat < 0x40 then deviceParameter else contents
    | deviceParameter =>
      if c.toNat < 0x30 then deviceShort else if c.toNat < 0x3c then deviceParameter else contents
    | deviceShort => if c.toNat < 0x30 then deviceShort else contents
    | contents => contents
    | command => command

/-- Whether a character is shown. -/
def shows (m : Mode) (c : Char) : Bool :=
  match m with
  | outside => !isControl c || isLayout c
  | opened | short | control => isLayout c
  | device | deviceParameter | deviceShort | contents | command => false

end Mode

/-- What is shown of a text that begins in a mode, which may be interrupted. -/
def shownFrom (m : Mode) (interrupted : Bool) : List Char → List Char
  | [] => []
  | c :: cs =>
    if (if interrupted then Mode.outside else m).shows c then
      c :: shownFrom (if c.toNat < 0x80 then m else .outside) true cs
    else shownFrom (m.after c) false cs

/-- **What is shown of a text**, without all that steers a terminal. -/
def plain (cs : List Char) : List Char := shownFrom .outside false cs

/-! ## Styles -/

/-- How a text is set off. -/
inductive Style
  | alarm
  | mistake
  | literal
deriving DecidableEq, Repr

def Style.parameter : Style → String
  | .alarm => "1;31"
  | .mistake => "33"
  | .literal => "1"

/-- **A text in a style**; the style ends with the text. -/
def styled (s : Style) (text : String) : String := "\x1b[" ++ s.parameter ++ "m" ++ text ++ "\x1b[0m"

end Formula.CommandLine.Terminal
