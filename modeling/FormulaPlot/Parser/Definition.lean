/-
Reading a block of function definitions, one on each line.

First the header `name(params) =` of every line is read.  Then the bodies are, in the
order of their lines, except that a call of a function whose body has not been read
yet reads that body first.  `Progress` is what is known in the middle of this: the
functions read so far, the definitions that are waiting for a callee, and those that
failed.  A call of a waiting definition goes round in a circle and is refused.

A line that fails is reported and left out.  It does not keep the others from being
defined.
-/
import FormulaPlot.Parser.Formula
import FormulaPlot.Text.Blank
import FormulaPlot.Text.Lines

namespace FormulaPlot.Parser

open Inquiry (fail)

/-! ### Headers -/

/-- A definition whose header has been read. -/
structure Definition where
  name : String
  params : List String
  /-- The tokens after the sign of definition. -/
  body : List Token
  line : Nat

/-- Reads the names of parameters, separated by commas and all different. -/
def parameters (seen : List String) : Reader (List String)
  | ⟨.ident name, _, _, column⟩ :: rest =>
    if name ∈ seen then fail ⟨.duplicateParameter name, column⟩
    else do
      let _ ← moveTo rest
      match rest with
      | ⟨.symbol .comma, _, _, _⟩ :: rest => do
        let _ ← moveTo rest
        let (others, tokens) ← parameters (name :: seen) rest
        pure (name :: others, tokens)
      | _ => pure ([name], rest)
  | tokens => failAt tokens .parameterNameExpected

/-- Refuses a name that a function cannot take. -/
def checkName (taken : String → Bool) (name : String) (column : Nat) : Inquiry Unit :=
  if (Intrinsic.ofName? name).isSome then fail ⟨.nameOfIntrinsic name, column⟩
  else if (Constant.value? name).isSome then fail ⟨.nameOfConstant name, column⟩
  else if taken name then fail ⟨.alreadyDefined name, column⟩
  else pure ()

/-- Reads the rest of a header after the function's name, which stands at `column`. -/
def signature (taken : String → Bool) (name : String) (column : Nat) : Reader (List String) :=
  fun tokens => do
    checkName taken name column
    let tokens ← moveTo tokens
    let tokens ← expect .openParen tokens
    let (params, tokens) ← parameters [] tokens
    let tokens ← expect .closeParen tokens
    let tokens ← expect .assign tokens
    pure (params, tokens)

/-- Reads the header of a line.  A fault before the function's name belongs to no
function. -/
def header (taken : String → Bool) (line : Nat) (tokens : List Token) :
    Except ParseError Definition :=
  match tokens with
  | ⟨.ident name, _, _, column⟩ :: rest =>
    match (signature taken name column rest).against .empty with
    | .ok (params, body) => .ok ⟨name, params, body, line⟩
    | .error fault => .error (.ofFault name line fault)
  | _ =>
    let cause := match tokens.head?.bind Token.error? with
      | some e => .lexical e
      | none => .functionNameExpected
    .error (.ofFault "" line ⟨cause, Parser.column tokens⟩)

/-- Reads the headers of numbered lines, given those of the lines before. -/
def headers (functions : Registry) : (before : List Definition) → List (String × Nat) →
    List Definition × List ParseError
  | before, [] => (before, [])
  | before, (text, line) :: rest =>
    if Text.isAllBlank text then headers functions before rest
    else
      let taken := fun name => functions.contains name || before.any (·.name == name)
      match header taken line (Token.tokenize text) with
      | .ok d => headers functions (before ++ [d]) rest
      | .error e =>
        let (definitions, errors) := headers functions before rest
        (definitions, e :: errors)

/-! ### Bodies -/

/-- What is known while the bodies of a block are read. -/
structure Progress where
  registry : Registry
  /-- The definitions being read, each waiting for the one before it in the list. -/
  waiting : List String
  failed : List String
  errors : List ParseError

/-- What is known about a function that some body calls.  A definition that has not been
read yet is read by `define`. -/
def lookup (definitions : List Definition) (define : Definition → Progress → Answer × Progress)
    (name : String) (p : Progress) : Answer × Progress :=
  match p.registry.get? name with
  | some f => (.found f, p)
  | none =>
    match definitions.find? (·.name == name) with
    | none => (.missing, p)
    | some d =>
      if name ∈ p.waiting then (.recursive, p)
      else if name ∈ p.failed then (.invalid, p)
      else define d p

/-- Reads the body of a definition, and first the bodies it asks for.  `fuel` bounds how
many definitions can wait for one another; there are never more than the block has. -/
def define (finish : Expr → Expr) (definitions : List Definition) :
    (fuel : Nat) → Definition → Progress → Answer × Progress
  | 0, _, p => (.recursive, p)
  | fuel + 1, d, p =>
    let answer := lookup definitions (define finish definitions fuel)
    let entered := { p with waiting := d.name :: p.waiting }
    let (result, after) := (topLevel d.params d.body).run answer entered
    match result with
    | .ok body =>
      let f : UserFunction := ⟨d.name, d.params, finish body⟩
      (.found f, { after with registry := after.registry.insert f, waiting := p.waiting })
    | .error fault =>
      (.invalid, { after with
        waiting := p.waiting
        failed := d.name :: after.failed
        errors := .ofFault d.name d.line fault :: after.errors })

/-- Reads all bodies in turn, skipping those that were read on the way. -/
def defineAll (finish : Expr → Expr) (definitions : List Definition) (p : Progress) : Progress :=
  definitions.foldl
    (fun p d => (lookup definitions (define finish definitions definitions.length) d.name p).2) p

/-- Adds the functions of a block to a registry, their bodies changed by `finish`.  The
errors are in the order of their lines. -/
def readBlock (finish : Expr → Expr) (text : String) (functions : Registry) :
    Registry × List ParseError :=
  let (definitions, errors) := headers functions [] ((Text.lines text).zipIdx 1)
  let p := defineAll finish definitions ⟨functions, [], [], errors⟩
  (p.registry, p.errors.mergeSort fun a b => a.line ≤ b.line)

/-- Adds the functions of a block to a registry, with the constant parts of their bodies
folded. -/
def parseBlock (text : String) (functions : Registry) : Registry × List ParseError :=
  readBlock Expr.simplify text functions

end FormulaPlot.Parser
