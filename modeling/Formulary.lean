import Formulary.Main
import Formulary.Node.Census
import Formulary.Node.Likeness
import Formulary.Proofs.Scanning
import Formulary.Proofs.Reading
import Formulary.Proofs.Tracing
import Formulary.Proofs.Texts
import Formulary.Proofs.Grammar
import Formulary.Proofs.Derivations
import Formulary.Proofs.Language
import Formulary.Proofs.Shape
import Formulary.Proofs.Joining
import Formulary.Proofs.Suffixes
import Formulary.Proofs.Numerals
import Formulary.Proofs.Printing
import Formulary.Proofs.RoundTrip
import Formulary.Proofs.Places
import Formulary.Proofs.Faults
import Formulary.Proofs.Lines
import Formulary.Proofs.Sheets
import Formulary.Proofs.Answers
import Formulary.Proofs.Completions
import Formulary.Proofs.Prefixes
import Formulary.Proofs.Expectations
import Formulary.Proofs.Agreement
import Formulary.Proofs.Parentheses
import Formulary.Proofs.Blanks
import Formulary.Proofs.Viability
import Formulary.Proofs.Contexts
import Formulary.Proofs.Candidates
import Formulary.Proofs.Rows
import Formulary.Proofs.Octets
import Formulary.Proofs.Display
import Formulary.Proofs.Sessions
import Formulary.Proofs.Runs
import Formulary.Proofs.Summands
import Formulary.Proofs.Heads
import Formulary.Proofs.Marks
import Formulary.Proofs.Decimals
import Formulary.Proofs.Outlines
import Formulary.Proofs.Carets
import Formulary.Proofs.Indentation
import Formulary.Proofs.Scripts
import Formulary.Proofs.Resolution
