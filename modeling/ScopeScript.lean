import ScopeScript.Ast.Basic
import ScopeScript.Ast.Outline
import ScopeScript.Ast.Parse
import ScopeScript.Ast.Precedence
import ScopeScript.Ast.Printer
import ScopeScript.Ast.WellFormed
import ScopeScript.CommandLine
import ScopeScript.Console
import ScopeScript.Eval.Basic
import ScopeScript.Eval.Construct
import ScopeScript.Eval.Fault
import ScopeScript.Eval.Input
import ScopeScript.Eval.Machine
import ScopeScript.Eval.Operators
import ScopeScript.Eval.Run
import ScopeScript.Grammar.Matching
import ScopeScript.Grammar.Pattern
import ScopeScript.Grammar.Rule
import ScopeScript.Main
import ScopeScript.Number.Binary
import ScopeScript.Number.Fixed
import ScopeScript.Number.Radix
import ScopeScript.Number.Reading
import ScopeScript.Number.Shortest
import ScopeScript.Number.Word
import ScopeScript.Report.Problem
import ScopeScript.Report.Snippet
import ScopeScript.Scope
import ScopeScript.Text.Blank
import ScopeScript.Text.Printable
import ScopeScript.Text.Quoted
import ScopeScript.Text.Span
import ScopeScript.Value.Basic
import ScopeScript.Value.Class
import ScopeScript.Value.Text
import ScopeScript.Proofs.Kept
import ScopeScript.Proofs.Call
import ScopeScript.Proofs.Operators
import ScopeScript.Proofs.Move
import ScopeScript.Proofs.Parts
import ScopeScript.Proofs.Law
import ScopeScript.Proofs.LogLaw
import ScopeScript.Proofs.Discipline
import ScopeScript.Proofs.Internal
import ScopeScript.Proofs.Home
import ScopeScript.Proofs.Session
import ScopeScript.Proofs.Lexical
import ScopeScript.Proofs.Assembly
import ScopeScript.Proofs.Onward
import ScopeScript.Proofs.Twin
import ScopeScript.Proofs.Coupling
import ScopeScript.Proofs.Limits
import ScopeScript.Proofs.Entries
import ScopeScript.Proofs.Termination
import ScopeScript.Proofs.Moments
import ScopeScript.Proofs.Derivation
import ScopeScript.Proofs.Reading
import ScopeScript.Proofs.Sound
import ScopeScript.Proofs.Tables
import ScopeScript.Proofs.Lists
import ScopeScript.Proofs.FailFast
import ScopeScript.Proofs.Positions
import ScopeScript.Proofs.Lexemes
import ScopeScript.Proofs.Shapes
import ScopeScript.Proofs.Totality
import ScopeScript.Proofs.Scanning
import ScopeScript.Proofs.Recognition
import ScopeScript.Proofs.Tokens
import ScopeScript.Proofs.Meaning
import ScopeScript.Proofs.Choices
import ScopeScript.Proofs.Phrases
import ScopeScript.Proofs.Constants
import ScopeScript.Proofs.Written
import ScopeScript.Proofs.RoundTrip
import ScopeScript.Proofs.Finding
import ScopeScript.Proofs.Decimals
import ScopeScript.Proofs.Spelling
import ScopeScript.Proofs.Geometry
import ScopeScript.Proofs.ErrorPlaces
import ScopeScript.Proofs.Framing
import ScopeScript.Proofs.Courses
import ScopeScript.Proofs.OutputLines
import ScopeScript.Proofs.Truncation
import ScopeScript.Proofs.ReadBack
import ScopeScript.Proofs.Abandoned
import ScopeScript.Proofs.Pieces
import ScopeScript.Proofs.Boundaries
import ScopeScript.Proofs.CarriedParts
import ScopeScript.Proofs.CarriedRules
import ScopeScript.Proofs.Layout
import ScopeScript.Proofs.Settling
import ScopeScript.Proofs.Leftovers
import ScopeScript.Proofs.Containment
import ScopeScript.Proofs.Iterating
import ScopeScript.Proofs.Storing
import ScopeScript.Proofs.Grouping
import ScopeScript.Proofs.Equality
import ScopeScript.Proofs.Exactness
import ScopeScript.Proofs.Arithmetic
import ScopeScript.Proofs.Heights
