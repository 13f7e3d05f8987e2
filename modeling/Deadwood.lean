import Deadwood.Command.Help
import Deadwood.Command.Options
import Deadwood.Command.Run
import Deadwood.Command.Switch
import Deadwood.Files.Path
import Deadwood.Files.Store
import Deadwood.Main
import Deadwood.Number.Basic
import Deadwood.Number.Decimal
import Deadwood.Number.Double
import Deadwood.Optimize
import Deadwood.Pass.Fold
import Deadwood.Pass.Prune
import Deadwood.Pass.Validate
import Deadwood.Pipeline
import Deadwood.Problem
import Deadwood.Source.Chain
import Deadwood.Source.Expected
import Deadwood.Source.Grammar
import Deadwood.Source.Keyword
import Deadwood.Source.Literal
import Deadwood.Source.Parse
import Deadwood.Source.Screen
import Deadwood.Source.Token
import Deadwood.Text.Class
import Deadwood.Text.Encoding
import Deadwood.Text.Escape
import Deadwood.Text.Json
import Deadwood.Text.Lines
import Deadwood.Text.Point
import Deadwood.Text.Printable
import Deadwood.Text.Shown
import Deadwood.Text.Utf8
import Deadwood.Tree.Basic
import Deadwood.Tree.Dump
import Deadwood.Tree.Operator
import Deadwood.Tree.Print
import Deadwood.Proofs.Pruning
import Deadwood.Proofs.Trace
import Deadwood.Proofs.Folding
import Deadwood.Proofs.Rounds
import Deadwood.Proofs.Meaning
import Deadwood.Proofs.Value
import Deadwood.Proofs.Chain
import Deadwood.Proofs.Bare
import Deadwood.Proofs.Validation
import Deadwood.Proofs.Derivation
import Deadwood.Proofs.Everywhere
import Deadwood.Proofs.Derived
import Deadwood.Proofs.Lexing
import Deadwood.Proofs.Soundness
import Deadwood.Proofs.Regular
import Deadwood.Proofs.Pipeline
import Deadwood.Proofs.Reading
import Deadwood.Proofs.Follow
import Deadwood.Proofs.Completeness
import Deadwood.Proofs.Screening
import Deadwood.Proofs.Concatenation
import Deadwood.Proofs.Spelling
import Deadwood.Proofs.Printed
import Deadwood.Proofs.Reread
import Deadwood.Proofs.Placement
import Deadwood.Proofs.Clashes
import Deadwood.Proofs.Parentheses
import Deadwood.Proofs.Quiet
import Deadwood.Proofs.MaskedLines
import Deadwood.Proofs.Reserved
import Deadwood.Proofs.Slips
import Deadwood.Proofs.RoundTrip
import Deadwood.Proofs.Labels
import Deadwood.Proofs.NormalForm
import Deadwood.Proofs.Expression
import Deadwood.Proofs.Quotation
import Deadwood.Proofs.Rounding
import Deadwood.Proofs.Shortest
import Deadwood.Proofs.NumberText
import Deadwood.Proofs.PrintedNumber
import Deadwood.Proofs.Recut
import Deadwood.Proofs.PrintedScreen
import Deadwood.Proofs.ArgumentNames
import Deadwood.Proofs.Brackets
import Deadwood.Proofs.WholeDoubles
import Deadwood.Proofs.Nesting
import Deadwood.Proofs.Targets
import Deadwood.Proofs.Sight
import Deadwood.Proofs.Clauses
import Deadwood.Proofs.Agreement
import Deadwood.Proofs.Offences
import Deadwood.Proofs.CommentLines
import Deadwood.Proofs.DanglingElse
import Deadwood.Proofs.LineEnds
import Deadwood.Proofs.Renaming
import Deadwood.Proofs.Places
import Deadwood.Proofs.FirstOffence
import Deadwood.Proofs.Spans
import Deadwood.Proofs.FileNames
import Deadwood.Proofs.Files
import Deadwood.Proofs.Encoded
import Deadwood.Proofs.Delivery
import Deadwood.Proofs.Indentation
