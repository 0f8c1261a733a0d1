/-
Expressions.

An expression is the tree of a formula.  Names are gone: a variable is its place in
the list of names the formula was read over, and a call of a user function carries
the function's body, so a tree means the same whatever happens to the registry it
was read against.
-/
import FormulaPlot.Expr.Operator
import FormulaPlot.Intrinsic

namespace FormulaPlot

/-- The tree of a formula. -/
inductive Expr where
  | const (value : Float)
  /-- The variable at a place of the argument list. -/
  | var (index : Nat)
  | unary (op : UnaryOp) (operand : Expr)
  | binary (op : BinaryOp) (left right : Expr)
  /-- A call of an intrinsic. -/
  | apply (f : Intrinsic) (args : List Expr)
  /-- A call of the user function `name(params) = body`. -/
  | call (name : String) (params : List String) (body : Expr) (args : List Expr)
  /-- `cond ? yes : no` -/
  | ternary (cond yes no : Expr)
  /-- `inner, where cond`: absent wherever the condition fails. -/
  | limit (inner cond : Expr)

/-- A function written by the user as `name(params) = body`.  The variables of the
body are places in the list of parameters. -/
structure UserFunction where
  name : String
  params : List String
  body : Expr

/-- The number of parameters. -/
def UserFunction.arity (f : UserFunction) : Nat := f.params.length

namespace Expr

/-- The call of a user function. -/
def callOf (f : UserFunction) (args : List Expr) : Expr := call f.name f.params f.body args

/-- The subtrees one level below.  The body of a called function is not one of them. -/
def children : Expr → List Expr
  | const _ | var _ => []
  | unary _ e => [e]
  | binary _ a b => [a, b]
  | apply _ args => args
  | call _ _ _ args => args
  | ternary c a b => [c, a, b]
  | limit e c => [e, c]

/-- The tree is a single constant. -/
def isConst : Expr → Bool
  | const _ => true
  | _ => false

mutual

/-- No variable occurs, so the value does not depend on the arguments. -/
def isConstant : Expr → Bool
  | const _ => true
  | var _ => false
  | unary _ e => isConstant e
  | binary _ a b => isConstant a && isConstant b
  | apply _ args => allConstant args
  | call _ _ _ args => allConstant args
  | ternary c a b => isConstant c && isConstant a && isConstant b
  | limit e c => isConstant e && isConstant c

/-- No variable occurs in any of the trees. -/
def allConstant : List Expr → Bool
  | [] => true
  | e :: es => isConstant e && allConstant es

end

/-- How strongly the outermost operator binds.  A negative constant starts with a
minus sign, so it binds like a prefix operator. -/
def precedence : Expr → Precedence
  | const value => if isNegative value then .unary else .atom
  | var _ | apply .. | call .. => .atom
  | unary .. => .unary
  | binary op _ _ => op.precedence
  | ternary .. => .ternary
  | limit .. => .clause

end Expr

end FormulaPlot
