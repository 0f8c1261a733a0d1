/-
The value of an expression.

Evaluation never fails: NaN and the infinities take their course, and a variable
beyond the end of the argument list is NaN.
-/
import FormulaPlot.Expr.Basic

namespace FormulaPlot.Expr

mutual

/-- The value of a tree for a list of arguments. -/
def eval (env : List Float) : Expr → Float
  | const value => value
  | var index => env[index]?.getD nan
  | unary op e => op.apply (eval env e)
  | binary op a b => op.apply (eval env a) (eval env b)
  | apply f args => f.apply (evalAll env args)
  | call _ _ body args => eval (evalAll env args) body
  | ternary c a b => if isTrue (eval env c) then eval env a else eval env b
  | limit e c => if isTrue (eval env c) then eval env e else nan

/-- The values of several trees. -/
def evalAll (env : List Float) : List Expr → List Float
  | [] => []
  | e :: es => eval env e :: evalAll env es

end

end FormulaPlot.Expr
