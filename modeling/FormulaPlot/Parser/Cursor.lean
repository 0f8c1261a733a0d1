/-
Reading an expression from its text.

A reader of tokens is given all tokens of a line and the levels of nesting that are left.
A walk has neither.  It stands at a cursor: one token has been cut off the text ahead of
it, the rest of the text is behind that token, and the levels that are open are counted.
Taking a token cuts off the next one.  A level is opened in front of a ternary and in
front of the operand of a prefix operator, and closed behind it.  Each fold of a binary
operator opens one as well, and behind the last operand the count goes back to what it
was in front of the first one.

A walk can ask for functions.  `answer` tells what is known about a name, and may change
a memory when it does.

Walks call one another, and nothing in them says that this comes to an end.  So a walk is
also given fuel, which bounds how many calls may be inside of one another.  A walk that
runs out of it has no outcome.
-/
import FormulaPlot.Parser.Expression

namespace FormulaPlot.Parser

/-- Where a walk is, and what it has done so far. -/
structure Cursor where
  /-- The token that comes next. -/
  token : Token
  /-- The characters behind that token. -/
  text : List Char
  /-- The levels of nesting that are open. -/
  depth : Nat
  /-- The tokens that were taken, in order.  No walk looks at them. -/
  taken : List Token
  /-- The most levels that have been open.  No walk looks at them. -/
  deepest : Nat

namespace Cursor

/-- The cursor in front of a text that stands after `start` bytes and `column - 1`
characters of its line. -/
def ofText (start column : Nat) (text : List Char) : Cursor :=
  let (token, text) := Token.next start column text
  ⟨token, text, 0, [], 0⟩

/-- The cursor behind the token that comes next. -/
def next (c : Cursor) : Cursor :=
  let (token, text) := Token.next (c.token.start + c.token.size)
    (c.token.column + c.token.lexeme.length) c.text
  { c with token, text, taken := c.taken ++ [c.token] }

/-- The cursor with another number of open levels. -/
def atDepth (c : Cursor) (depth : Nat) : Cursor :=
  { c with depth, deepest := max c.deepest depth }

/-- The symbol that comes next. -/
def symbol? (c : Cursor) : Option Symbol :=
  match c.token.kind with
  | .symbol s => some s
  | _ => none

/-- The name that comes next. -/
def name? (c : Cursor) : Option String :=
  match c.token.kind with
  | .ident name => some name
  | _ => none

/-- The input ends here. -/
def atFinish (c : Cursor) : Bool :=
  match c.token.kind with
  | .finish => true
  | _ => false

end Cursor

/-- A walk leaves its cursor somewhere else, with a value or with a fault. -/
abbrev Walk (σ : Type) := ExceptT Fault (StateT (Cursor × σ) Option)

namespace Walk

variable {σ α : Type}

/-! ### Steps -/

/-- Where the walk is. -/
def cursor : Walk σ Cursor := do return (← get).1

/-- Goes on from another cursor. -/
def goTo (c : Cursor) : Walk σ Unit := modify fun (_, s) => (c, s)

/-- Fails at the token that comes next. -/
def refuse (cause : Cause) : Walk σ α := do throw ⟨cause, (← cursor).token.column⟩

/-- Fails if the token that comes next is an error. -/
def check : Walk σ Unit := do
  match (← cursor).token.error? with
  | some e => refuse (.lexical e)
  | none => pure ()

/-- Takes the token that comes next. -/
def advance : Walk σ Unit := do
  goTo (← cursor).next
  check

/-- Takes a symbol that has to come next. -/
def expect (s : Symbol) : Walk σ Unit := do
  if (← cursor).symbol? = some s then advance else refuse (.symbolExpected s)

/-- Opens a level. -/
def enter : Walk σ Unit := do
  let c ← cursor
  if c.depth < maxDepth then goTo (c.atDepth (c.depth + 1)) else refuse .tooDeep

/-- Opens a level for a walk, and closes it whether the walk fails or not. -/
@[reducible] def nested (walk : Walk σ α) : Walk σ α :=
  (do
    match ← enter.run with
    | .error fault => return .error fault
    | .ok () =>
      let outcome ← walk.run
      modify fun (c, s) => (c.atDepth (c.depth - 1), s)
      return outcome : StateT (Cursor × σ) Option (Except Fault α))

/-- Asks for functions. -/
def inquire (answer : String → σ → Answer × σ) (inquiry : Inquiry α) : Walk σ α :=
  (fun (c, s) =>
    let (outcome, s) := inquiry.run answer s
    some (outcome, c, s) : StateT (Cursor × σ) Option (Except Fault α))

/-! ### Expressions -/

/-- A walk that ran out of fuel. -/
def exhausted : Walk σ α :=
  (fun _ => none : StateT (Cursor × σ) Option (Except Fault α))

variable (answer : String → σ → Answer × σ) (names : List String)

mutual

/-- Walks through an expression that may be a choice between two. -/
def ternary : Nat → Walk σ Expr
  | 0 => exhausted
  | fuel + 1 => nested do
    let cond ← binary fuel .disjunction
    if (← cursor).symbol? = some .question then
      advance
      let yes ← binary fuel .disjunction
      expect .colon
      let no ← ternary fuel
      return .ternary cond yes no
    else return cond

/-- Walks through an expression of operators that bind at least as strongly as `min`. -/
def binary : Nat → Precedence → Walk σ Expr
  | 0, _ => exhausted
  | fuel + 1, min => do
    let outer := (← cursor).depth
    let left ← unary fuel
    let e ← folds fuel min left
    goTo ((← cursor).atDepth outer)
    return e

/-- Walks through the operators and right operands that follow `left`. -/
def folds : Nat → Precedence → Expr → Walk σ Expr
  | 0, _, _ => exhausted
  | fuel + 1, min, left => do
    match (← cursor).symbol?.bind BinaryOp.ofSymbol? with
    | none => return left
    | some op =>
      if op.precedence < min then return left
      else
        advance
        enter
        let right ← binary fuel op.rightMin
        folds fuel min (.binary op left right)

/-- Walks through an operand with the prefix operators in front of it. -/
def unary : Nat → Walk σ Expr
  | 0 => exhausted
  | fuel + 1 => do
    match (← cursor).symbol?.bind UnaryOp.ofSymbol? with
    | none => atom fuel
    | some op =>
      advance
      let operand ← nested (unary fuel)
      return .unary op operand

/-- Walks through a number, a name with what belongs to it, or an expression in
parentheses. -/
def atom : Nat → Walk σ Expr
  | 0 => exhausted
  | fuel + 1 => do
    let t := (← cursor).token
    match t.kind with
    | .number value =>
      advance
      return .const value
    | .ident name =>
      advance
      resolve fuel name t.column
    | .symbol .openParen =>
      advance
      let inner ← ternary fuel
      expect .closeParen
      return inner
    | _ => refuse .expressionExpected

/-- Walks through what belongs to a name at `column` that has been taken. -/
def resolve : Nat → String → Nat → Walk σ Expr
  | 0, _, _ => exhausted
  | fuel + 1, name, column => do
    match names.idxOf? name with
    | some index => return .var index
    | none =>
      match Constant.value? name with
      | some value => return .const value
      | none =>
        if (← cursor).symbol? = some .openParen then call fuel name column
        else throw ⟨.undefinedName name, column⟩

/-- Walks through the call of `name`, which stands at `column`, from its opening
parenthesis. -/
def call : Nat → String → Nat → Walk σ Expr
  | 0, _, _ => exhausted
  | fuel + 1, name, column => do
    let f ← inquire answer (callee name column)
    expect .openParen
    let args ← operands fuel
    expect .closeParen
    if args.length = f.arity then return f.applyTo args
    else throw ⟨.arity name f.arity, column⟩

/-- Walks through operands separated by commas. -/
def operands : Nat → Walk σ (List Expr)
  | 0 => exhausted
  | fuel + 1 => do
    let first ← ternary fuel
    if (← cursor).symbol? = some .comma then
      advance
      let others ← operands fuel
      return first :: others
    else return [first]

end

/-- Walks through a whole formula or body, up to the end of its line. -/
def topLevel (fuel : Nat) : Walk σ Expr := do
  check
  let inner ← ternary answer names fuel
  let e ←
    if (← cursor).symbol? = some .comma then
      advance
      if (← cursor).name? = some "where" then
        advance
        let cond ← ternary answer names fuel
        pure (.limit inner cond)
      else refuse .whereExpected
    else pure inner
  if (← cursor).atFinish then return e else refuse .unexpectedToken

end Walk

end FormulaPlot.Parser
