import Formula.CommandLine.Arguments
import Formula.CommandLine.Terminal

/-!
# Usage — what is written about the arguments

When the arguments cannot be understood, the run writes one line that says why. The line is the first of
a longer text for a terminal, which sets off what it quotes and ends with a hint at `--help`; everything
that steers a terminal is taken out of that text before the line is cut from it (`usageLine`). What an
argument leaves open is closed by the style around it. Only the cause of a bad binding stands outside any
style, so a sequence that a binding leaves open there reaches into what comes after it.

When help or the version is asked for, the run writes that and does nothing else.
-/

namespace Formula.CommandLine

open CommandLine.Terminal

/-- The wording of an error, as a text for a terminal. -/
def ArgumentError.message : ArgumentError → String
  | unexpected argument => "unexpected argument '" ++ styled .mistake argument ++ "' found"
  | noBinding option =>
    "a value is required for '" ++ styled .literal (option.name ++ " <NAME=VALUE>") ++ "' but none was supplied"
  | badBinding text option cause =>
    "invalid value '" ++ styled .mistake text ++ "' for '" ++
      styled .literal (option.name ++ " <NAME=VALUE>") ++ "': " ++ cause.message
  | repeated switch => "the argument '" ++ styled .mistake switch.name ++ "' cannot be used multiple times"
  | attached value switch =>
    "unexpected value '" ++ styled .mistake value ++ "' for '" ++ styled .literal switch.name ++
      "' found; no more were expected"

/-- What a text for a terminal says of an error in the arguments. -/
def usageText (e : ArgumentError) : String :=
  styled .alarm "error:" ++ " " ++ e.message ++ "\n\nFor more information, try '" ++
    styled .literal "--help" ++ "'.\n"

/-- The first line of a text, without a carriage return at its end. -/
def firstLine (cs : List Char) : List Char :=
  let line := cs.takeWhile (· != '\n')
  if line.getLast? = some '\r' then line.dropLast else line

/-- **What is written of an error in the arguments.** -/
def usageLine (e : ArgumentError) : String := String.ofList (firstLine (plain (usageText e).toList)) ++ "\n"

/-- The line that tells the version. -/
def versionLine : String := "arithc 0.1.0\n"

/-- The text that tells the arguments. -/
def usageHelp : String :=
  "arithc compiles arithmetic expressions and evaluates them\n\n" ++
  "Usage: arithc [OPTIONS] [EXPRESSION]\n\n" ++
  "Arguments:\n" ++
  "  [EXPRESSION]  Expression to evaluate. Reads standard input when omitted\n\n" ++
  "Options:\n" ++
  "      --var <NAME=VALUE>    Binds a mutable variable. May be repeated\n" ++
  "      --const <NAME=VALUE>  Binds a constant, folded into expressions at compile time. May be repeated\n" ++
  "  -t, --table               Table mode prints every input line's value with 20 significant digits, " ++
    "or `[FAIL] <line>` when it does not compile\n" ++
  "  -q, --quiet               Suppresses diagnostics\n" ++
  "  -h, --help                Print help\n" ++
  "  -V, --version             Print version\n"

end Formula.CommandLine
