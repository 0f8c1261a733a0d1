/-
White space in text typed by the user.

Answers at a prompt are cut at both ends, and a text that is nothing but white space
counts as blank.  The white space of a text is that of Unicode, which has
twenty-five characters.  Between the tokens of a formula only three of them are
allowed; `Token.isSpace` says which.
-/

namespace FormulaPlot.Text

/-- The Unicode characters with the property White_Space. -/
def isBlank (c : Char) : Bool :=
  let n := c.toNat
  (0x09 ≤ n && n ≤ 0x0D) || n = 0x20 || n = 0x85 || n = 0xA0 || n = 0x1680 ||
  (0x2000 ≤ n && n ≤ 0x200A) || n = 0x2028 || n = 0x2029 || n = 0x202F || n = 0x205F ||
  n = 0x3000

/-- The text without white space at its ends. -/
def trim (s : String) : String :=
  String.ofList (((s.toList.dropWhile isBlank).reverse.dropWhile isBlank).reverse)

/-- The text holds nothing but white space. -/
def isAllBlank (s : String) : Bool := s.toList.all isBlank

end FormulaPlot.Text
