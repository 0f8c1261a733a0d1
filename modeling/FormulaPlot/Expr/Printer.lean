/-
Expressions as text.

A tree is written with as few parentheses as its operators allow.  Each place in a
formula asks for some strength of binding, and a subtree that binds less strongly is
put in parentheses.
-/
import FormulaPlot.Expr.Basic
import FormulaPlot.Decimal.Layout

namespace FormulaPlot

namespace Expr

/-- The name of a variable; one without a name is written as its place. -/
def variableText (names : List String) (index : Nat) : String :=
  names[index]?.getD ("$" ++ index.repr)

/-- The text, in parentheses if the tree binds less strongly than its place asks. -/
def enclose (inner asked : Precedence) (text : String) : String :=
  if inner < asked then "(" ++ text ++ ")" else text

mutual

/-- Writes a tree at a place that asks for a precedence. -/
def write (names : List String) (asked : Precedence) : Expr → String
  | const value => enclose (const value).precedence asked (Decimal.literal value)
  | var index => variableText names index
  | unary op e => enclose .unary asked (op.text ++ write names .unary e)
  | binary op a b =>
    enclose op.precedence asked
      (write names op.leftMin a ++ " " ++ op.text ++ " " ++ write names op.rightMin b)
  | apply f args => f.name ++ "(" ++ writeArgs names args ++ ")"
  | call name _ _ args => name ++ "(" ++ writeArgs names args ++ ")"
  | ternary c a b =>
    enclose .ternary asked
      (write names .disjunction c ++ " ? " ++ write names .disjunction a ++ " : " ++
        write names .ternary b)
  | limit e c =>
    enclose .clause asked (write names .ternary e ++ ", where " ++ write names .ternary c)

/-- Writes the arguments of a call. -/
def writeArgs (names : List String) : List Expr → String
  | [] => ""
  | [e] => write names .ternary e
  | e :: es => write names .ternary e ++ ", " ++ writeArgs names es

end

/-- The tree as text, its variables named by a list of names. -/
def text (names : List String) (e : Expr) : String := e.write names .clause

end Expr

/-- The function as it is defined: `name(params) = body`. -/
def UserFunction.text (f : UserFunction) : String :=
  f.name ++ "(" ++ ", ".intercalate f.params ++ ") = " ++ f.body.text f.params

end FormulaPlot
