/-!
# Lines — standard input, a line at a time

A **line** is what stands before a line feed, or after the last one when that is anything at all. The
line feed is dropped and one carriage return before it; a carriage return at the very end of the input
stays. A line whose bytes are not UTF-8 is unreadable, and reading stops there.
-/

namespace Formula.CommandLine

/-- **A line of input.** -/
inductive Line
  | text (s : String)
  /-- Its bytes are not UTF-8. -/
  | unreadable
deriving DecidableEq, Repr

/-- The byte that ends a line. -/
def lineFeed : UInt8 := 10

/-- The byte that may stand before it. -/
def carriageReturn : UInt8 := 13

/-- Some bytes without the carriage return that ends them. -/
def chomp (bs : List UInt8) : List UInt8 :=
  if bs.getLast? = some carriageReturn then bs.dropLast else bs

def splitLines (bs : List UInt8) : List (List UInt8) :=
  match _h : bs.dropWhile (· != lineFeed) with
  | [] => if bs.isEmpty then [] else [bs]
  | _ :: rest => chomp (bs.takeWhile (· != lineFeed)) :: splitLines rest
termination_by bs.length
decreasing_by
  have h : (bs.dropWhile (· != lineFeed)).length ≤ bs.length := (List.dropWhile_sublist _).length_le
  rw [_h, List.length_cons] at h
  omega

def Line.ofBytes (bs : List UInt8) : Line :=
  match String.fromUTF8? ⟨bs.toArray⟩ with
  | some s => .text s
  | none => .unreadable

/-- **The lines of an input.** -/
def linesOf (input : ByteArray) : List Line := (splitLines input.toList).map Line.ofBytes

end Formula.CommandLine
