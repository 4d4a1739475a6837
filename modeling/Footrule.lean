import Footrule.CalcError
import Footrule.Calculation
import Footrule.Display.Decimal
import Footrule.Display.FeetInches
import Footrule.Display.Fraction
import Footrule.Formula
import Footrule.Formula.Division
import Footrule.Keypad
import Footrule.LengthUnit
import Footrule.Lexeme
import Footrule.Literal
import Footrule.Literal.Reader
import Footrule.Machine
import Footrule.Mode
import Footrule.OutputUnit
import Footrule.Precision
import Footrule.Precision.Binary64
import Footrule.Precision.Nearest
import Footrule.Proofs.Breaks.Compound
import Footrule.Proofs.Breaks.Scan
import Footrule.Proofs.Breaks.Stretches
import Footrule.Proofs.Exact.Agreement
import Footrule.Proofs.Exact.Numbers
import Footrule.Proofs.Exact.Printed
import Footrule.Proofs.Exact.Spans
import Footrule.Proofs.Grammar
import Footrule.Proofs.Grammar.Balance
import Footrule.Proofs.Grammar.Machine
import Footrule.Proofs.Grammar.Parse
import Footrule.Proofs.Homogeneity
import Footrule.Proofs.Plain.Accepted
import Footrule.Proofs.Plain.Chains
import Footrule.Proofs.Plain.Joining
import Footrule.Proofs.Plain.Modes
import Footrule.Proofs.Plain.Quotients
import Footrule.Proofs.Plain.Respacing
import Footrule.Proofs.Plain.Severed
import Footrule.Proofs.Plain.Spacing
import Footrule.Proofs.Plain.Sums
import Footrule.Proofs.Precision
import Footrule.Proofs.Precision.Grid
import Footrule.Proofs.Precision.Nearest
import Footrule.Proofs.Precision.Recovery
import Footrule.Proofs.Precision.Termination
import Footrule.Proofs.Preparation.Again
import Footrule.Proofs.Preparation.Grouping
import Footrule.Proofs.Preparation.Idle
import Footrule.Proofs.Preparation.Joined
import Footrule.Proofs.Preparation.UnitGaps
import Footrule.Proofs.Regrouping
import Footrule.Proofs.Session.Coherence
import Footrule.Proofs.Session.History
import Footrule.Proofs.Session.Keypad
import Footrule.Proofs.Session.Origin
import Footrule.Proofs.Shown.Decimals
import Footrule.Proofs.Shown.Determined
import Footrule.Proofs.Shown.FeetInches
import Footrule.Proofs.Shown.FixedPoint
import Footrule.Proofs.Shown.Literals
import Footrule.Proofs.Shown.LowestTerms
import Footrule.Proofs.Shown.OnGrid
import Footrule.Proofs.Shown.Signed
import Footrule.Proofs.Shown.Uniform
import Footrule.Proofs.Shown.Unitless
import Footrule.Proofs.Traced
import Footrule.Proofs.Written
import Footrule.Proofs.Written.Evaluation
import Footrule.Proofs.Written.Fractions
import Footrule.Proofs.Written.Joining
import Footrule.Proofs.Written.Lengths
import Footrule.Proofs.Written.Passes
import Footrule.Proofs.Written.Pieces
import Footrule.Proofs.Written.Reading
import Footrule.Proofs.Written.Scan
import Footrule.Proofs.Written.Tokens
import Footrule.Proofs.Written.Units
import Footrule.Proofs.Written.Value
import Footrule.Quantity
import Footrule.Rounding
import Footrule.Screen
import Footrule.Session
import Footrule.Settings
import Footrule.Text.Blank
import Footrule.Text.CharRange
import Footrule.Text.Digit
import Footrule.Text.Replacement
import Footrule.Text.Word
import Footrule.Token
import Footrule.Traced
