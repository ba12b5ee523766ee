import ClauseLisp.Builtin
import ClauseLisp.Builtin.Call
import ClauseLisp.Builtin.Compute
import ClauseLisp.Bytes
import ClauseLisp.CommandLine
import ClauseLisp.Cursor
import ClauseLisp.Datum
import ClauseLisp.Expr
import ClauseLisp.Expr.Function
import ClauseLisp.Expr.Kind
import ClauseLisp.Expr.OfForm
import ClauseLisp.Expr.Printer
import ClauseLisp.Expr.Rule
import ClauseLisp.Expr.Template
import ClauseLisp.Fault
import ClauseLisp.Form
import ClauseLisp.Form.Reader
import ClauseLisp.Form.Writer
import ClauseLisp.Lexeme
import ClauseLisp.Lexeme.Lemmas
import ClauseLisp.Lexeme.Scan
import ClauseLisp.Location
import ClauseLisp.Machine
import ClauseLisp.Main
import ClauseLisp.Number
import ClauseLisp.Number.Binary64
import ClauseLisp.Number.Decimal
import ClauseLisp.Number.Reading
import ClauseLisp.Operation
import ClauseLisp.Pattern
import ClauseLisp.Pattern.Match
import ClauseLisp.Pattern.OfForm
import ClauseLisp.Proofs.Builtin.Calls
import ClauseLisp.Proofs.Builtin.Computed
import ClauseLisp.Proofs.Bytes
import ClauseLisp.Proofs.Expr.Nesting
import ClauseLisp.Proofs.Expr.Parts
import ClauseLisp.Proofs.Expr.Scoped
import ClauseLisp.Proofs.Expr.Shape
import ClauseLisp.Proofs.Form.Grammar
import ClauseLisp.Proofs.Form.Placed
import ClauseLisp.Proofs.Form.RoundTrip
import ClauseLisp.Proofs.Form.Spelling
import ClauseLisp.Proofs.Form.Text
import ClauseLisp.Proofs.Lexeme.Extent
import ClauseLisp.Proofs.Lexeme.Reread
import ClauseLisp.Proofs.Machine.Discipline
import ClauseLisp.Proofs.Machine.Growth
import ClauseLisp.Proofs.Machine.Operands
import ClauseLisp.Proofs.Machine.Scope
import ClauseLisp.Proofs.Number.Decimal
import ClauseLisp.Proofs.Run.Contract
import ClauseLisp.Proofs.Session.Scope
import ClauseLisp.Proofs.Token.Pieces
import ClauseLisp.Proofs.Token.Steps
import ClauseLisp.Proofs.Value.Equality
import ClauseLisp.Proofs.Value.Procedures
import ClauseLisp.Proofs.World.Lookup
import ClauseLisp.Quoted
import ClauseLisp.Report
import ClauseLisp.Run
import ClauseLisp.Session
import ClauseLisp.Token
import ClauseLisp.Value
import ClauseLisp.Value.Arithmetic
import ClauseLisp.Value.Equality
import ClauseLisp.Value.Printer
import ClauseLisp.Warning
import ClauseLisp.World
import ClauseLisp.Proofs.Token.Lines
import ClauseLisp.Proofs.Form.Lines
import ClauseLisp.Proofs.CommandLine.OpenBrackets
import ClauseLisp.Proofs.Run.Truncation
import ClauseLisp.Proofs.Machine.Policy
import ClauseLisp.Proofs.Machine.Truncation
import ClauseLisp.Proofs.Machine.Occurrence
import ClauseLisp.Proofs.Machine.Selection
import ClauseLisp.Proofs.Session.CallDepth
import ClauseLisp.Proofs.Session.Privacy
import ClauseLisp.Proofs.Form.Relocation
import ClauseLisp.Proofs.Value.Reading
import ClauseLisp.Proofs.Expr.Relocation
import ClauseLisp.Proofs.Expr.Agreement
import ClauseLisp.Proofs.Expr.Shown
import ClauseLisp.Proofs.Session.Reformatting
import ClauseLisp.Proofs.Machine.Fuel
import ClauseLisp.Proofs.Machine.Template
import ClauseLisp.Proofs.Builtin.Replacement
import ClauseLisp.Proofs.Expr.Resolution
import ClauseLisp.Proofs.World.Resolution
import ClauseLisp.Proofs.Run.Simulation
import ClauseLisp.Proofs.Machine.Simulation
import ClauseLisp.Proofs.Machine.Resolution
import ClauseLisp.Proofs.Session.Pieces
import ClauseLisp.Proofs.Pattern.Matching
import ClauseLisp.Proofs.Machine.Let
import ClauseLisp.Proofs.Expr.Inheritance
import ClauseLisp.Proofs.Expr.Clauses
import ClauseLisp.Proofs.Machine.Clauses
import ClauseLisp.Proofs.Machine.Endings
import ClauseLisp.Proofs.Machine.Connectives
import ClauseLisp.Proofs.Machine.Folds
import ClauseLisp.Proofs.Builtin.Maps
import ClauseLisp.Proofs.Expr.Operators
import ClauseLisp.Proofs.Builtin.Splitting
import ClauseLisp.Proofs.Value.ArithmeticEquality
import ClauseLisp.Proofs.Builtin.Sorting
import ClauseLisp.Proofs.Builtin.IntegerText
import ClauseLisp.Proofs.Builtin.Divisors
import ClauseLisp.Proofs.Builtin.CodePoints
import ClauseLisp.Proofs.CommandLine.Options
import ClauseLisp.Proofs.Expr.Definitions
import ClauseLisp.Proofs.Session.Bodies
import ClauseLisp.Comparing
import ClauseLisp.Proofs.Comparing.Sort
import ClauseLisp.Proofs.Comparing.Sorters
import ClauseLisp.Proofs.CommandLine.Prompt
import ClauseLisp.Proofs.Machine.CoreCalls
import ClauseLisp.Proofs.Token.Cursors
