/-
Structural equality of expressions.

Two trees are equivalent if they have the same shape, the same operators and
functions, and constants of the same bits.  The parameters of a called function count
only by their number, since a body does not mention their names.
-/
import FormulaPlot.Expr.Basic

namespace FormulaPlot.Expr

mutual

/-- The trees have the same shape, operators and functions, and constants of the same
bits. -/
def isEquivalent : Expr → Expr → Bool
  | const a, const b => a.toBits == b.toBits
  | var i, var j => i == j
  | unary p a, unary q b => p == q && isEquivalent a b
  | binary p a c, binary q b d => p == q && isEquivalent a b && isEquivalent c d
  | apply f as, apply g bs => f == g && areEquivalent as bs
  | call f ps a as, call g qs b bs =>
    f == g && ps.length == qs.length && isEquivalent a b && areEquivalent as bs
  | ternary a c e, ternary b d f => isEquivalent a b && isEquivalent c d && isEquivalent e f
  | limit a c, limit b d => isEquivalent a b && isEquivalent c d
  | _, _ => false

/-- The lists are equally long and equivalent tree by tree. -/
def areEquivalent : List Expr → List Expr → Bool
  | [], [] => true
  | a :: as, b :: bs => isEquivalent a b && areEquivalent as bs
  | _, _ => false

end

end FormulaPlot.Expr
