import KeypadCalculator.Main
import KeypadCalculator.Proofs.Expression.Descent
import KeypadCalculator.Proofs.Expression.Glyphs
import KeypadCalculator.Proofs.Typing.Glyphs
import KeypadCalculator.Proofs.Binary64.Arithmetic
import KeypadCalculator.Proofs.Binary64.Integers
import KeypadCalculator.Proofs.Binary64.Places
import KeypadCalculator.Proofs.Binary64.ReadBack
import KeypadCalculator.Proofs.Binary64.Steady
import KeypadCalculator.Proofs.Calculator.Reachable
import KeypadCalculator.Proofs.Calculator.Settled
import KeypadCalculator.Proofs.Typing.Meaning
import KeypadCalculator.Proofs.Typing.Outcome
import KeypadCalculator.Proofs.Binary64.Coarsest
import KeypadCalculator.Proofs.Binary64.Written
import KeypadCalculator.Proofs.Binary64.RoundedPlaces
import KeypadCalculator.Proofs.Calculator.Coherence
import KeypadCalculator.Proofs.Typing.Typable
import KeypadCalculator.Proofs.Expression.Viable
import KeypadCalculator.Proofs.Typing.Readable
import KeypadCalculator.Proofs.Calculator.Keyed
import KeypadCalculator.Proofs.Toml.Quoted
import KeypadCalculator.Proofs.Settings.RoundTrip
import KeypadCalculator.Proofs.Binary64.Whole
import KeypadCalculator.Proofs.Expression.Whole
import KeypadCalculator.Proofs.Binary64.FifteenDigits
import KeypadCalculator.Proofs.Expression.Spelling
import KeypadCalculator.Proofs.Expression.DecimalSum
import KeypadCalculator.Proofs.Session.OneShot
import KeypadCalculator.Proofs.Session.Stream
import KeypadCalculator.Proofs.Expression.Lexemes
import KeypadCalculator.Proofs.Expression.Alphabet
import KeypadCalculator.Proofs.Program.Saving
import KeypadCalculator.Proofs.Json.Lossless
import KeypadCalculator.Proofs.Binary64.Monotone
import KeypadCalculator.Proofs.Expression.Positions
import KeypadCalculator.Proofs.Expression.Visits
import KeypadCalculator.Proofs.Calculator.Unclosed
import KeypadCalculator.Proofs.Calculator.Noninterference
import KeypadCalculator.Proofs.Arguments.Verbatim
import KeypadCalculator.Proofs.Program.Verdict
import KeypadCalculator.Proofs.Expression.Budget
import KeypadCalculator.Proofs.Settings.Fields
import KeypadCalculator.Proofs.Expression.Frame
