/-
Tokens.

A line of a formula is read as a list of tokens, each with its text and the place
where it stands.  The list ends with the token for the end of the input or with the
first piece of text that is no token.
-/
import FormulaPlot.Token.Symbol

namespace FormulaPlot

/-- Why a piece of text is no token. -/
inductive LexicalError where
  | invalidChar
  | invalidNumber
deriving DecidableEq, Repr

/-- The reason as shown to the user. -/
def LexicalError.message : LexicalError → String
  | invalidChar => "Invalid character."
  | invalidNumber => "Invalid number."

/-- What a token is. -/
inductive Token.Kind where
  | number (value : Float)
  | ident (name : String)
  | symbol (symbol : Symbol)
  /-- The end of the text, of its line, or a semicolon. -/
  | finish
  | invalid (error : LexicalError)

/-- A token where it stands in its line. -/
structure Token where
  kind : Token.Kind
  /-- The characters of the token. -/
  lexeme : String
  /-- The number of bytes before the token. -/
  start : Nat
  /-- The number of characters before the token, plus one. -/
  column : Nat

namespace Token

/-- The length of the token in bytes. -/
def size (t : Token) : Nat := t.lexeme.utf8ByteSize

/-- The error of a token that stands for one. -/
def error? (t : Token) : Option LexicalError :=
  match t.kind with
  | .invalid e => some e
  | _ => none

/-- No token follows this one. -/
def isLast (t : Token) : Bool :=
  match t.kind with
  | .finish | .invalid _ => true
  | _ => false

end Token

end FormulaPlot
