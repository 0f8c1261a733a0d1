/-
Operators and how strongly they bind.

Reading and writing a formula both go by the same table: the precedence of an
operator and, for operators of one precedence in a row, the side to which they group.
-/
import FormulaPlot.Token.Symbol
import FormulaPlot.Number.Rounding
import FormulaPlot.Number.Truth

namespace FormulaPlot

/-- Binding strength, weakest first. -/
inductive Precedence where
  | clause
  | ternary
  | disjunction
  | conjunction
  | comparison
  | sum
  | product
  | power
  | unary
  | atom
deriving DecidableEq, Repr

namespace Precedence

/-- The place of a precedence, counted from the weakest. -/
def rank : Precedence → Nat
  | clause => 0 | ternary => 1 | disjunction => 2 | conjunction => 3 | comparison => 4
  | sum => 5 | product => 6 | power => 7 | unary => 8 | atom => 9

instance : LT Precedence := ⟨fun p q => p.rank < q.rank⟩
instance : LE Precedence := ⟨fun p q => p.rank ≤ q.rank⟩
instance (p q : Precedence) : Decidable (p < q) := inferInstanceAs (Decidable (p.rank < q.rank))
instance (p q : Precedence) : Decidable (p ≤ q) := inferInstanceAs (Decidable (p.rank ≤ q.rank))

/-- The next stronger precedence; nothing binds more strongly than an atom. -/
def next : Precedence → Precedence
  | clause => ternary | ternary => disjunction | disjunction => conjunction
  | conjunction => comparison | comparison => sum | sum => product | product => power
  | power => unary | unary => atom | atom => atom

end Precedence

/-- The side to which operators of one precedence group. -/
inductive Associativity where
  | left
  | right
deriving DecidableEq, Repr

/-- An operator in front of its operand. -/
inductive UnaryOp where
  | neg
  | not
deriving DecidableEq, Repr

namespace UnaryOp

/-- The operator that a symbol stands for in front of an operand. -/
def ofSymbol? : Symbol → Option UnaryOp
  | .minus => some neg
  | .not => some not
  | _ => none

/-- How the operator is written. -/
def text : UnaryOp → String
  | neg => "-"
  | not => "!"

/-- The value of the operator on a value. -/
def apply : UnaryOp → Float → Float
  | neg, x => -x
  | not, x => ofTruth !(isTrue x)

end UnaryOp

/-- An operator between its operands. -/
inductive BinaryOp where
  | add | sub | mul | div | rem | pow
  | eq | ne | lt | le | gt | ge
  | and | or
deriving DecidableEq, Repr

namespace BinaryOp

/-- The operator that a symbol stands for between two operands.  Equality can be
written with one sign or two. -/
def ofSymbol? : Symbol → Option BinaryOp
  | .plus => some add | .minus => some sub
  | .star => some mul | .slash => some div | .percent => some rem
  | .caret => some pow
  | .assign | .equal => some eq
  | .notEqual => some ne
  | .less => some lt | .lessEqual => some le
  | .greater => some gt | .greaterEqual => some ge
  | .and => some and | .or => some or
  | _ => none

/-- How the operator is written. -/
def text : BinaryOp → String
  | add => "+" | sub => "-" | mul => "*" | div => "/" | rem => "%" | pow => "^"
  | eq => "==" | ne => "!=" | lt => "<" | le => "<=" | gt => ">" | ge => ">="
  | and => "&&" | or => "||"

/-- How strongly the operator binds. -/
def precedence : BinaryOp → Precedence
  | or => .disjunction
  | and => .conjunction
  | eq | ne | lt | le | gt | ge => .comparison
  | add | sub => .sum
  | mul | div | rem => .product
  | pow => .power

/-- Powers group to the right, all other operators to the left. -/
def associativity : BinaryOp → Associativity
  | pow => .right
  | _ => .left

/-- What the left operand has to bind as strongly as, to stand without parentheses. -/
def leftMin (op : BinaryOp) : Precedence :=
  match op.associativity with
  | .left => op.precedence
  | .right => op.precedence.next

/-- What the right operand has to bind as strongly as, to stand without parentheses. -/
def rightMin (op : BinaryOp) : Precedence :=
  match op.associativity with
  | .left => op.precedence.next
  | .right => op.precedence

/-- The value of the operator on two values. -/
def apply : BinaryOp → Float → Float → Float
  | add, a, b => a + b
  | sub, a, b => a - b
  | mul, a, b => a * b
  | div, a, b => a / b
  | rem, a, b => remainder a b
  | pow, a, b => Float.pow a b
  | eq, a, b => ofTruth (a == b)
  | ne, a, b => ofTruth (a != b)
  | lt, a, b => ofTruth (a < b)
  | le, a, b => ofTruth (a ≤ b)
  | gt, a, b => ofTruth (b < a)
  | ge, a, b => ofTruth (b ≤ a)
  | and, a, b => ofTruth (isTrue a && isTrue b)
  | or, a, b => ofTruth (isTrue a || isTrue b)

end BinaryOp

end FormulaPlot
