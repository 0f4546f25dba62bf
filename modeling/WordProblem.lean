import WordProblem.Text
import WordProblem.Binary64
import WordProblem.Shortest
import WordProblem.Numeral
import WordProblem.Number
import WordProblem.Token
import WordProblem.Fault
import WordProblem.Catalog
import WordProblem.Formula
import WordProblem.Formula.Counting
import WordProblem.Formula.Table
import WordProblem.Program
import WordProblem.Program.Grouping
import WordProblem.Program.Nested
import WordProblem.Program.Run
import WordProblem.Expression
import WordProblem.Expression.Value
import WordProblem.Options
import WordProblem.Solve
import WordProblem.CommandLine.Request
import WordProblem.CommandLine.Session
import WordProblem.Main
import WordProblem.Proofs.Assembly
import WordProblem.Proofs.NestedForm
import WordProblem.Proofs.Binding
import WordProblem.Proofs.Evaluation
import WordProblem.Proofs.Progress
import WordProblem.Proofs.Batch
import WordProblem.Proofs.Listing
import WordProblem.Proofs.References
import WordProblem.Proofs.Unfolding
import WordProblem.Proofs.Printing
import WordProblem.Proofs.Recording
import WordProblem.Proofs.Diagnosis
import WordProblem.Proofs.Messages
import WordProblem.Proofs.Quoting
import WordProblem.Proofs.Invocation
import WordProblem.Proofs.Session
import WordProblem.Proofs.Parts
import WordProblem.Proofs.Rounding
import WordProblem.Proofs.Decimal
import WordProblem.Proofs.Numeral
import WordProblem.Proofs.Options
import WordProblem.Proofs.Resuming
import WordProblem.Proofs.Sharing
import WordProblem.Proofs.Placeholders
import WordProblem.Proofs.Shape
import WordProblem.Proofs.Fragment
import WordProblem.Proofs.EarliestFault
import WordProblem.Proofs.Forms
import WordProblem.Proofs.Replacing
import WordProblem.Proofs.Matching
import WordProblem.Proofs.Scanning
import WordProblem.Proofs.Quotients
import WordProblem.Proofs.Slots
import WordProblem.Proofs.Lines
import WordProblem.Proofs.CatalogLines
import WordProblem.Proofs.Magnitude
import WordProblem.Proofs.Arithmetic
import WordProblem.Proofs.Nearness
import WordProblem.Proofs.Counting
import WordProblem.Proofs.Arrangements
import WordProblem.Proofs.Divisors
import WordProblem.Proofs.Multiples
import WordProblem.Proofs.Selections
import WordProblem.Proofs.Binomials
import WordProblem.Proofs.Layout
import WordProblem.Proofs.Extraction
import WordProblem.Proofs.Stacks
import WordProblem.Proofs.Overflow
import WordProblem.Proofs.FiniteSlots
