import Formula.Token.Scan

/-!
# Cursors — a scan taken one token at a time

A **cursor** stands in a source and reads the next token when asked. It may be asked in two ways, and in
any order. `Cursor.token` always answers: past the end it answers with the end, and where no token
begins it stays, answering with the same invalid token. `Cursor.item` answers with the tokens up to the
first stop that it hands out itself, and with nothing after that.

The first time a cursor meets a place where no token begins it also says what it could not read; asked
again it is silent.
-/

namespace Formula

/-- **A place in a source being scanned.** -/
structure Cursor where
  offset : Nat
  unread : List Char
  /-- The invalid token, once one was met. -/
  stuck : Option Token
  /-- Whether `item` has handed out a stop. -/
  finished : Bool
deriving Repr

/-- What a cursor answers: a value, the unreadable rest when this is the first time it is met, and the
cursor moved on. -/
structure Cursor.Answer (α : Type) where
  value : α
  /-- The source from the place where no token begins, when just met. -/
  unreadable : Option String
  cursor : Cursor

namespace Cursor

def start (source : String) : Cursor := ⟨0, source.toList, none, false⟩

/-- **The next token**, or the stop's token ever after. -/
def token (c : Cursor) : Answer Token :=
  match c.stuck with
  | some t => ⟨t, none, c⟩
  | none =>
    match step c.offset c.unread with
    | .word t offset rest => ⟨t, none, { c with offset := offset, unread := rest }⟩
    | .stop (.endOfInput offset) =>
      ⟨Stop.token (.endOfInput offset), none, { c with offset := offset, unread := [] }⟩
    | .stop (.invalid offset unread) =>
      let t := Stop.token (.invalid offset unread)
      ⟨t, some unread, { c with stuck := some t }⟩

/-- Whether a kind is that of a stop. -/
def isStop (kind : TokenKind) : Bool := kind == .endOfInput || kind == .invalid

/-- **The next token of the listing**: every token up to the first stop handed out here, then nothing. -/
def item (c : Cursor) : Answer (Option Token) :=
  if c.finished then ⟨none, none, c⟩
  else
    let a := c.token
    let finished := isStop a.value.kind
    ⟨some a.value, a.unreadable, { a.cursor with finished := finished }⟩

end Cursor

inductive Cursor.Request
  | token | item
deriving DecidableEq, Repr

/-- What a cursor answers to a request; `none` when the listing is over. -/
def Cursor.answer (c : Cursor) : Cursor.Request → Cursor.Answer (Option Token)
  | .token => let a := c.token; ⟨some a.value, a.unreadable, a.cursor⟩
  | .item => c.item

/-- **The answers to a run of requests**, and what was found unreadable on the way. -/
def Cursor.run (c : Cursor) : List Cursor.Request → List (Option Token) × List String
  | [] => ([], [])
  | r :: rs =>
    let a := c.answer r
    let (values, unreadable) := run a.cursor rs
    (a.value :: values, a.unreadable.toList ++ unreadable)

end Formula
