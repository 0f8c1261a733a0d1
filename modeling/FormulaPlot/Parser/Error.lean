/-
What can be wrong with a formula or a definition.

A fault is a cause and the column of the token it is about.  A parse error adds the
line, and the function that was being defined there.  The words shown to the user
follow from the cause.
-/
import FormulaPlot.Token.Basic
import FormulaPlot.Intrinsic

namespace FormulaPlot

/-- Why a formula or a definition is refused. -/
inductive Cause where
  | lexical (error : LexicalError)
  | tooDeep
  | symbolExpected (symbol : Symbol)
  | whereExpected
  | expressionExpected
  | functionNameExpected
  | parameterNameExpected
  | unexpectedToken
  | undefinedName (name : String)
  | unknownFunction (name : String)
  | arity (name : String) (expected : Nat)
  /-- A called function of the same block has an error of its own. -/
  | calleeHasErrors (name : String)
  /-- A definition calls itself, directly or through others. -/
  | recursive (name : String)
  | nameOfIntrinsic (name : String)
  | nameOfConstant (name : String)
  | alreadyDefined (name : String)
  | duplicateParameter (name : String)
deriving DecidableEq, Repr

/-- The class that a cause belongs to. -/
inductive Cause.Kind where
  | lexical (error : LexicalError)
  | grammar
  | undefinedName (name : String)
  | unknownFunction (name : String)
  | semantic
deriving DecidableEq, Repr

namespace Cause

/-- The class of a cause. -/
def kind : Cause → Kind
  | lexical e => .lexical e
  | tooDeep | symbolExpected _ | whereExpected | expressionExpected | functionNameExpected
  | parameterNameExpected | unexpectedToken => .grammar
  | undefinedName name => .undefinedName name
  | unknownFunction name => .unknownFunction name
  | arity .. | calleeHasErrors _ | recursive _ | nameOfIntrinsic _ | nameOfConstant _
  | alreadyDefined _ | duplicateParameter _ => .semantic

/-- The cause as shown to the user. -/
def message : Cause → String
  | lexical e => e.message
  | tooDeep => "Expression too deeply nested."
  | symbolExpected s => "'" ++ s.text ++ "' expected."
  | whereExpected => "'where' expected."
  | expressionExpected => "Expression expected."
  | functionNameExpected => "Function name expected."
  | parameterNameExpected => "Parameter name expected."
  | unexpectedToken => "Unexpected token."
  | undefinedName name => "Undefined variable or constant: " ++ name ++ "."
  | unknownFunction name => "Unknown function: " ++ name ++ "."
  | arity name expected =>
    expected.repr ++ " argument" ++ (if expected = 1 then "" else "s") ++ " expected for " ++
      name ++ "()."
  | calleeHasErrors name => "Function " ++ name ++ "() has errors."
  | recursive name => "Recursive reference to function: " ++ name ++ "."
  | nameOfIntrinsic name => name ++ "() is an intrinsic function."
  | nameOfConstant name => name ++ " is a named constant."
  | alreadyDefined name => "Function already defined: " ++ name ++ "."
  | duplicateParameter name => "Duplicate parameter name: " ++ name ++ "."

end Cause

/-- A cause and the column of the token that it is about. -/
structure Fault where
  cause : Cause
  column : Nat
deriving DecidableEq, Repr

/-- A fault in a line of a formula or of a block of definitions. -/
structure ParseError where
  cause : Cause
  /-- The function being defined; empty outside a definition. -/
  function : String
  /-- The number of the line, from one. -/
  line : Nat
  column : Nat
deriving DecidableEq, Repr

namespace ParseError

/-- A fault found on a line, in the definition of a function. -/
def ofFault (function : String) (line : Nat) (fault : Fault) : ParseError :=
  ⟨fault.cause, function, line, fault.column⟩

/-- The error as shown to the user. -/
def message (e : ParseError) : String := e.cause.message

/-- The error with its position. -/
def text (e : ParseError) : String :=
  "line " ++ e.line.repr ++ ", column " ++ e.column.repr ++ ": " ++ e.message

end ParseError

end FormulaPlot
