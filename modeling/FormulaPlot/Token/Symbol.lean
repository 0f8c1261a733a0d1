/-
The symbols of the formula language.
-/

namespace FormulaPlot

/-- A symbol of one or two characters. -/
inductive Symbol where
  | plus | minus | star | slash | percent | caret
  | openParen | closeParen | comma
  | assign | equal | notEqual | less | lessEqual | greater | greaterEqual
  | or | and | not | question | colon
deriving DecidableEq, Repr

namespace Symbol

/-- How a symbol is written. -/
def text : Symbol → String
  | plus => "+" | minus => "-" | star => "*" | slash => "/" | percent => "%" | caret => "^"
  | openParen => "(" | closeParen => ")" | comma => ","
  | assign => "=" | equal => "==" | notEqual => "!=" | less => "<" | lessEqual => "<="
  | greater => ">" | greaterEqual => ">="
  | or => "||" | and => "&&" | not => "!" | question => "?" | colon => ":"

/-- Every symbol, those of two characters first, so that the first one a text starts
with is also the longest. -/
def all : List Symbol :=
  [equal, notEqual, lessEqual, greaterEqual, or, and,
   plus, minus, star, slash, percent, caret, openParen, closeParen, comma,
   assign, less, greater, not, question, colon]

/-- The longest symbol at the start of a text. -/
def leading? (cs : List Char) : Option Symbol :=
  all.find? fun s => s.text.toList.isPrefixOf cs

/-- No symbol is empty. -/
theorem toList_text_ne_nil (s : Symbol) : s.text.toList ≠ [] := by
  cases s <;> decide

end Symbol

end FormulaPlot
