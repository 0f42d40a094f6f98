import Handheld.Number.Text
import Handheld.Number.Functions
import Handheld.Text.Quoted
import Handheld.Text.Blank
import Handheld.Text.Uppercase
import Handheld.Token.Lexer
import Handheld.Token.Normal
import Handheld.Expr.Parser
import Handheld.Statement.Parser
import Handheld.Value.Arithmetic
import Handheld.Command
import Handheld.Colour
import Handheld.Workshop
import Handheld.Main
import Handheld.Proofs.Flattening
import Handheld.Proofs.Reading
import Handheld.Proofs.Rescan
import Handheld.Proofs.OpenBlocks
import Handheld.Proofs.Writes
import Handheld.Proofs.Reachable
import Handheld.Proofs.Dialogue
import Handheld.Proofs.Calls
import Handheld.Proofs.Unwinding
import Handheld.Proofs.LoopFree
import Handheld.Proofs.Placeless
import Handheld.Proofs.Lines
import Handheld.Proofs.Registration
import Handheld.Proofs.Library
import Handheld.Proofs.Pointwise
import Handheld.Proofs.Places
import Handheld.Proofs.Extremum
import Handheld.Proofs.Answers
import Handheld.Proofs.Lexemes
import Handheld.Proofs.ListLetter
import Handheld.Proofs.FileNames
import Handheld.Proofs.Rounding
import Handheld.Proofs.Nearest
import Handheld.Proofs.Decimals
import Handheld.Proofs.RoundPlaces
import Handheld.Proofs.SignedZero
import Handheld.Proofs.Agreement
import Handheld.Proofs.Equality
import Handheld.Proofs.SignificantDigits
import Handheld.Proofs.DecimalText
import Handheld.Proofs.Terms
import Handheld.Proofs.Retyping
import Handheld.Proofs.CutOff
import Handheld.Proofs.HomeScreen
import Handheld.Proofs.ListNames
import Handheld.Proofs.Slots
import Handheld.Proofs.ParserBounds
