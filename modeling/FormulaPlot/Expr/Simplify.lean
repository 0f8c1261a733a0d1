/-
Constant folding.

Folding works from the leaves up, so a subtree without variables has turned into a
constant before its parent is looked at.  A parent whose children are all constants
is then replaced by its value.
-/
import FormulaPlot.Expr.Eval

namespace FormulaPlot.Expr

/-- Replaces a tree whose children are all constants by its value. -/
def fold (e : Expr) : Expr :=
  if e.children.all isConst then const (canonical (e.eval [])) else e

mutual

/-- Folds every subtree without variables into a constant.  The bodies of called
functions stay as they are. -/
def simplify : Expr → Expr
  | const value => const value
  | var index => var index
  | unary op e => fold (unary op (simplify e))
  | binary op a b => fold (binary op (simplify a) (simplify b))
  | apply f args => fold (apply f (simplifyAll args))
  | call name params body args => fold (call name params body (simplifyAll args))
  | ternary c a b => fold (ternary (simplify c) (simplify a) (simplify b))
  | limit e c => fold (limit (simplify e) (simplify c))

/-- Folds several trees. -/
def simplifyAll : List Expr → List Expr
  | [] => []
  | e :: es => simplify e :: simplifyAll es

end

end FormulaPlot.Expr
