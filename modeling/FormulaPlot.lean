import FormulaPlot.Session.Run
import FormulaPlot.Expr.Printer
import FormulaPlot.Main
import FormulaPlot.Proofs.Grammar
import FormulaPlot.Proofs.Parser.Steps
import FormulaPlot.Proofs.Parser.Soundness
import FormulaPlot.Proofs.Parser.Completeness
import FormulaPlot.Proofs.Parser.Formula
import FormulaPlot.Proofs.Number.Special
import FormulaPlot.Proofs.Token.Lexing
import FormulaPlot.Proofs.Expr.Equivalence
import FormulaPlot.Proofs.Expr.Printer
import FormulaPlot.Proofs.Expr.Simplify
import FormulaPlot.Proofs.Parser.Similarity
import FormulaPlot.Proofs.Parser.Folding
import FormulaPlot.Proofs.Parser.Header
import FormulaPlot.Proofs.Parser.Block
import FormulaPlot.Proofs.Document.Formula
import FormulaPlot.Proofs.Document.History
import FormulaPlot.Proofs.Number.Order
import FormulaPlot.Proofs.Curve.Bisection
import FormulaPlot.Proofs.Curve.Polyline
import FormulaPlot.Proofs.Parser.Honesty
import FormulaPlot.Proofs.Parser.Blame
import FormulaPlot.Proofs.Parser.Order
import FormulaPlot.Proofs.Expr.Callees
import FormulaPlot.Proofs.Parser.Growth
import FormulaPlot.Proofs.Parser.Closure
import FormulaPlot.Proofs.Parser.Outcome
import FormulaPlot.Proofs.Parser.Nesting
import FormulaPlot.Proofs.Number.Rounding
import FormulaPlot.Proofs.Decimal.Nearest
import FormulaPlot.Proofs.Decimal.Shortest
import FormulaPlot.Proofs.Decimal.Literal
import FormulaPlot.Proofs.Parser.Restating
import FormulaPlot.Proofs.Parser.Listing
import FormulaPlot.Proofs.Expr.Scoping
import FormulaPlot.Proofs.Parser.Scoping
import FormulaPlot.Proofs.Token.Munch
import FormulaPlot.Proofs.Number.Exact
import FormulaPlot.Proofs.Curve.Resolution
import FormulaPlot.Proofs.Number.Grid
import FormulaPlot.Proofs.Number.Arithmetic
import FormulaPlot.Proofs.Curve.Termination
import FormulaPlot.Proofs.Expr.Observation
import FormulaPlot.Proofs.Grammar.Neighbours
import FormulaPlot.Proofs.Token.Spacing
import FormulaPlot.Proofs.Parser.Spacing
import FormulaPlot.Proofs.Decimal.Plain
import FormulaPlot.Proofs.Plot.Data
import FormulaPlot.Proofs.Plot.Script
import FormulaPlot.Proofs.Session.Plot
import FormulaPlot.Proofs.Session.Viewport
import FormulaPlot.Proofs.Parser.Monotone
import FormulaPlot.Proofs.Expr.NormalForm
import FormulaPlot.Proofs.Expr.Substitution
import FormulaPlot.Proofs.Grammar.Sentence
import FormulaPlot.Proofs.Grammar.Machine
import FormulaPlot.Proofs.Parser.Refusal
import FormulaPlot.Proofs.Parser.Places
import FormulaPlot.Proofs.Parser.Message
import FormulaPlot.Proofs.Parser.Position
import FormulaPlot.Proofs.Parser.Circles
import FormulaPlot.Proofs.Parser.Cursor
import FormulaPlot.Proofs.Parser.Fuel
import FormulaPlot.Proofs.Parser.Walk
import FormulaPlot.Proofs.Curve.Points
import FormulaPlot.Proofs.Plot.Title
import FormulaPlot.Proofs.Session.Title
import FormulaPlot.Proofs.Expr.Parentheses
import FormulaPlot.Proofs.Axis
import FormulaPlot.Proofs.Registry
import FormulaPlot.Proofs.Text.Similarity
import FormulaPlot.Proofs.Report
