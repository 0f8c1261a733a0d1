/-
Reading an expression.

    ternary  → disjunction ('?' disjunction ':' ternary)?
    binary   → unary (operator binary)*         by precedence
    unary    → ('-' | '!') unary | atom
    atom     → number | name | name '(' ternary (',' ternary)* ')' | '(' ternary ')'

A whole formula may end in a clause `, where ternary`.

Binary operators are read by precedence climbing: `binary` takes the weakest
precedence it may accept, and `folds` attaches operators to what has been read as
long as they bind at least that strongly.

Every reader takes the levels of nesting that are left.  A ternary, the operand of a
prefix operator and each fold of a binary operator use one up, and a formula that
needs more than `maxDepth` is refused.  The same number bounds the recursion: the
readers that call one another without using up a level stand in a fixed order.

The readers look at one token at a time.  A token that stands for an error is
reported as soon as it comes up, that is when the token before it is taken.
-/
import FormulaPlot.Parser.Inquiry
import FormulaPlot.Token.Lexer
import FormulaPlot.Constant

namespace FormulaPlot.Parser

open Inquiry (fail)

/-- The deepest nesting of a formula. -/
def maxDepth : Nat := 256

/-- A reader takes the tokens that are left and gives back those it did not use. -/
abbrev Reader (α : Type) := List Token → Inquiry (α × List Token)

/-! ### Tokens -/

/-- The column of the token that comes next. -/
def column : List Token → Nat
  | [] => 1
  | t :: _ => t.column

/-- Fails at the token that comes next. -/
def failAt {α : Type} (tokens : List Token) (cause : Cause) : Inquiry α :=
  fail ⟨cause, column tokens⟩

/-- Moves on to the given tokens, unless the first of them is an error. -/
def moveTo (tokens : List Token) : Inquiry (List Token) :=
  match tokens.head?.bind Token.error? with
  | some e => failAt tokens (.lexical e)
  | none => pure tokens

/-- The tokens after a symbol, if that symbol comes next. -/
def after? (s : Symbol) : List Token → Option (List Token)
  | ⟨.symbol s', _, _, _⟩ :: rest => if s' = s then some rest else none
  | _ => none

/-- The name that comes next, and the tokens after it. -/
def ident? : List Token → Option (String × List Token)
  | ⟨.ident name, _, _, _⟩ :: rest => some (name, rest)
  | _ => none

/-- The prefix operator that comes next, and the tokens after it. -/
def unaryOp? : List Token → Option (UnaryOp × List Token)
  | ⟨.symbol s, _, _, _⟩ :: rest => (UnaryOp.ofSymbol? s).map (·, rest)
  | _ => none

/-- The binary operator that comes next, and the tokens after it. -/
def binaryOp? : List Token → Option (BinaryOp × List Token)
  | ⟨.symbol s, _, _, _⟩ :: rest => (BinaryOp.ofSymbol? s).map (·, rest)
  | _ => none

/-- The input ends here. -/
def atFinish : List Token → Bool
  | ⟨.finish, _, _, _⟩ :: _ => true
  | _ => false

/-- Takes a symbol that has to come next. -/
def expect (s : Symbol) (tokens : List Token) : Inquiry (List Token) :=
  match after? s tokens with
  | some rest => moveTo rest
  | none => failAt tokens (.symbolExpected s)

/-! ### Calls -/

/-- What a call in a formula refers to. -/
inductive Callee where
  | intrinsic (f : Intrinsic)
  | user (f : UserFunction)

namespace Callee

/-- The number of arguments the callee takes. -/
def arity : Callee → Nat
  | intrinsic f => f.arity
  | user f => f.arity

/-- The tree of a call. -/
def applyTo : Callee → List Expr → Expr
  | intrinsic f, args => .apply f args
  | user f, args => .callOf f args

end Callee

/-- The function that a name refers to; intrinsics come before user functions.  Fails at
the column of the name. -/
def callee (name : String) (column : Nat) : Inquiry Callee :=
  match Intrinsic.ofName? name with
  | some f => pure (.intrinsic f)
  | none => do
    match ← Inquiry.request name with
    | .found f => pure (.user f)
    | .invalid => fail ⟨.calleeHasErrors name, column⟩
    | .recursive => fail ⟨.recursive name, column⟩
    | .missing => fail ⟨.unknownFunction name, column⟩

/-- Reads operands separated by commas.  `fuel` is the number of commas that may follow;
the number of tokens is enough. -/
def operands (operand : Reader Expr) : (fuel : Nat) → Reader (List Expr)
  | fuel, tokens => do
    let (first, tokens) ← operand tokens
    match after? .comma tokens with
    | none => pure ([first], tokens)
    | some rest =>
      match fuel with
      | 0 => failAt tokens .unexpectedToken
      | fuel + 1 => do
        let tokens ← moveTo rest
        let (others, tokens) ← operands operand fuel tokens
        pure (first :: others, tokens)

/-- Reads the call of `name`, which stands at `column`, from its opening parenthesis. -/
def call (operand : Reader Expr) (name : String) (column : Nat) : Reader Expr := fun tokens => do
  let f ← callee name column
  let tokens ← expect .openParen tokens
  let (args, tokens) ← operands operand tokens.length tokens
  let tokens ← expect .closeParen tokens
  if args.length = f.arity then pure (f.applyTo args, tokens)
  else fail ⟨.arity name f.arity, column⟩

/-- Reads what a name at `column` stands for: a variable, a constant, or the call of a
function if a parenthesis follows. -/
def resolve (operand : Reader Expr) (names : List String) (name : String) (column : Nat) :
    Reader Expr := fun tokens =>
  match names.idxOf? name with
  | some index => pure (.var index, tokens)
  | none =>
    match Constant.value? name with
    | some value => pure (.const value, tokens)
    | none =>
      if (after? .openParen tokens).isSome then call operand name column tokens
      else fail ⟨.undefinedName name, column⟩

/-! ### Expressions -/

mutual

/-- Reads an expression that may be a choice between two. -/
def ternary (names : List String) : (depth : Nat) → Reader Expr
  | 0, tokens => failAt tokens .tooDeep
  | depth + 1, tokens => do
    let (cond, tokens) ← binary names depth .disjunction tokens
    match after? .question tokens with
    | none => pure (cond, tokens)
    | some rest => do
      let tokens ← moveTo rest
      let (yes, tokens) ← binary names depth .disjunction tokens
      let tokens ← expect .colon tokens
      let (no, tokens) ← ternary names depth tokens
      pure (.ternary cond yes no, tokens)
termination_by depth => 6 * depth

/-- Reads an expression of operators that bind at least as strongly as `min`. -/
def binary (names : List String) (depth : Nat) (min : Precedence) : Reader Expr := fun tokens => do
  let (left, tokens) ← unary names depth tokens
  folds names depth min left tokens
termination_by 6 * depth + 4

/-- Reads the operators and right operands that follow `left`. -/
def folds (names : List String) (depth : Nat) (min : Precedence) (left : Expr) : Reader Expr :=
  fun tokens =>
    match binaryOp? tokens with
    | none => pure (left, tokens)
    | some (op, rest) =>
      if op.precedence < min then pure (left, tokens)
      else do
        let tokens ← moveTo rest
        match depth with
        | 0 => failAt tokens .tooDeep
        | depth + 1 => do
          let (right, tokens) ← binary names depth op.rightMin tokens
          folds names depth min (.binary op left right) tokens
termination_by 6 * depth

/-- Reads an operand with the prefix operators in front of it. -/
def unary (names : List String) (depth : Nat) : Reader Expr := fun tokens =>
  match unaryOp? tokens with
  | none => atom names depth tokens
  | some (op, rest) => do
    let tokens ← moveTo rest
    match depth with
    | 0 => failAt tokens .tooDeep
    | depth + 1 => do
      let (operand, tokens) ← unary names depth tokens
      pure (.unary op operand, tokens)
termination_by 6 * depth + 3

/-- Reads a number, a name with what belongs to it, or an expression in parentheses. -/
def atom (names : List String) (depth : Nat) : Reader Expr
  | ⟨.number value, _, _, _⟩ :: rest => do
    let tokens ← moveTo rest
    pure (.const value, tokens)
  | ⟨.ident name, _, _, column⟩ :: rest => do
    let tokens ← moveTo rest
    resolve (ternary names depth) names name column tokens
  | tokens =>
    match after? .openParen tokens with
    | none => failAt tokens .expressionExpected
    | some rest => do
      let tokens ← moveTo rest
      let (inner, tokens) ← ternary names depth tokens
      let tokens ← expect .closeParen tokens
      pure (inner, tokens)
termination_by 6 * depth + 2

end

/-- Reads a whole formula or body, up to the end of its line. -/
def topLevel (names : List String) (tokens : List Token) : Inquiry Expr := do
  let tokens ← moveTo tokens
  let (inner, tokens) ← ternary names maxDepth tokens
  let (e, tokens) ← match after? .comma tokens with
    | none => pure (inner, tokens)
    | some rest => do
      let tokens ← moveTo rest
      match ident? tokens with
      | some ("where", rest) => do
        let tokens ← moveTo rest
        let (cond, tokens) ← ternary names maxDepth tokens
        pure (.limit inner cond, tokens)
      | _ => failAt tokens .whereExpected
  if atFinish tokens then pure e else failAt tokens .unexpectedToken

end FormulaPlot.Parser
