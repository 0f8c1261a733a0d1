/-
What is reported to the user about texts, tokens and errors.

An error is shown under its place in the text, with a note on what may have been meant
where there is something to suggest.
-/
import FormulaPlot.Decimal.Layout
import FormulaPlot.Document.Formula
import FormulaPlot.Text.Similarity

namespace FormulaPlot.Report

/-- A line of output. -/
def line (s : String) : String := s ++ "\n"

/-- A character written several times. -/
def repeated (n : Nat) (c : Char) : String := String.ofList (List.replicate n c)

/-- The text and below it a mark of some width, at least one, from a column on. -/
def underline (text : String) (column width : Nat) : String :=
  line text ++ line (repeated (column - 1) ' ' ++ repeated (max width 1) '^')

/-! ### Parse errors -/

/-- A hint on the likely cause of an error, with names compared by a measure of resemblance. -/
def noteBy? (measure : String → String → Float) (text : String) (e : ParseError)
    (functions : Registry) : Option String :=
  match e.cause with
  | .lexical .invalidChar =>
    if text.toList[e.column - 1]? = some '|' then
      some "use the 'abs' function to compute absolute value"
    else
      some ("available tokens are numbers, identifiers, and symbols " ++
        "+ - * / % ^ ( ) , = == != < <= > >= || && ! ? :")
  | .lexical .invalidNumber => some "parsing as floating point number"
  | .unexpectedToken =>
    some "implicit multiplication is not supported, so for example '5x' would be '5*x'"
  | .undefinedName name =>
    let candidates := plotVariables ++ Constant.all.map (·.1)
    (Text.mostSimilarBy measure name candidates).map fun similar =>
      let kind := if similar ∈ plotVariables then "variable" else "constant"
      kind ++ " '" ++ similar ++ "' has a similar name"
  | .unknownFunction name =>
    let candidates := Intrinsic.all.map (·.name) ++ functions.names
    (Text.mostSimilarBy measure name candidates).map fun similar =>
      "function '" ++ similar ++ "' has a similar name"
  | _ => none

/-- A parse error of a text, shown in its place, with a note if there is one. -/
def explainBy (measure : String → String → Float) (text : String) (e : ParseError)
    (functions : Registry) : String :=
  let place := if e.function.isEmpty then "" else " in " ++ e.function ++ "()"
  let note := match noteBy? measure text e functions with
    | some n => line ("note: " ++ n)
    | none => ""
  underline text e.column 1 ++ line ("parse error" ++ place ++ ": " ++ e.message) ++ note

/-- What is shown of a parse error. -/
def explain (text : String) (e : ParseError) (functions : Registry) : String :=
  explainBy Text.similarity text e functions

/-! ### Listings -/

/-- A token on a line of its own. -/
def tokenLine (t : Token) : String :=
  line ("  " ++ match t.kind with
    | .finish => "end"
    | .invalid e => "error '" ++ t.lexeme ++ "': " ++ e.message
    | .number value => "number " ++ Decimal.literal value
    | .ident name => "ident " ++ name
    | .symbol s => "symbol " ++ s.text)

/-- The tokens of a text. -/
def tokens (text : String) : String :=
  line "tokens: " ++ String.join ((Token.tokenize text).map tokenLine)

/-- The intrinsics and the constants that formulas can use. -/
def reference : String :=
  line "functions:" ++ String.join (Intrinsic.all.map fun f => line ("  " ++ f.usage)) ++
    line "constants:" ++
    String.join (Constant.all.map fun (name, value) =>
      line ("  " ++ name ++ " = " ++ Decimal.plain value))

end FormulaPlot.Report
