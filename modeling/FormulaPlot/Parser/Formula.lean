/-
Reading a single formula against a registry.
-/
import FormulaPlot.Parser.Expression
import FormulaPlot.Expr.Simplify

namespace FormulaPlot.Parser

/-- The tree of a formula as it is written. -/
def read (text : String) (functions : Registry) (names : List String) : Except ParseError Expr :=
  ((topLevel names (Token.tokenize text)).against functions).mapError (.ofFault "" 1)

/-- The tree of a formula with its constant parts folded. -/
def parse (text : String) (functions : Registry) (names : List String) : Except ParseError Expr :=
  (read text functions names).map Expr.simplify

end FormulaPlot.Parser
