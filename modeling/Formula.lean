import Formula.Main
import Formula.Proofs.Compile.Run
import Formula.Proofs.Parse.FirstFault
import Formula.Proofs.Parse.Height
import Formula.Token.Cursor
import Formula.Proofs.Token.Numerals
import Formula.Proofs.Token.Reading
import Formula.Proofs.Token.Listing
import Formula.Proofs.Token.Slices
import Formula.Proofs.Compile.Arity
import Formula.Proofs.Safety
import Formula.Proofs.Compile.PreOrder
import Formula.Proofs.Binary64.Nearest
import Formula.Proofs.Decimal.Digits
import Formula.Proofs.Decimal.Positional
import Formula.Proofs.Decimal.Denotes
import Formula.Proofs.Decimal.Shortest
import Formula.Proofs.Decimal.Significant
import Formula.Proofs.Grammar.Spelling
import Formula.Proofs.Rendering
import Formula.Proofs.RoundTrip
import Formula.Proofs.Parse.History
import Formula.Proofs.Parse.Recording
import Formula.Proofs.Conversation
import Formula.Proofs.Token.Literals
import Formula.Proofs.Parse.InOrder
import Formula.Proofs.Parse.Moved
import Formula.Proofs.Token.Padding
import Formula.Proofs.WhiteSpace
import Formula.Proofs.Compile.Offence
import Formula.Proofs.Compile.NormalForm
import Formula.Proofs.Compile.Rebuilding
import Formula.Proofs.Symbol.Coefficient
import Formula.Proofs.Binary64.Powers
import Formula.Proofs.Binary64.Remainder
import Formula.Proofs.Symbol.Turns
import Formula.Proofs.Symbol.Exact
import Formula.Proofs.Token.Measure
import Formula.Proofs.Decimal.General
import Formula.Proofs.Decimal.Formats
import Formula.Proofs.Grammar.Oversized
import Formula.Proofs.Parse.Surplus
import Formula.Proofs.Bindings
import Formula.Proofs.Outline
import Formula.Proofs.Compile.Agreement
import Formula.Proofs.Parse.Levels
