/-
Text and its lines.

A line ends at a newline, and a carriage return just before the newline belongs to
the line end.  A newline at the very end of the text starts no further line.
-/

namespace FormulaPlot.Text

/-- Splits at every newline.  There is always a last piece, perhaps empty. -/
def pieces : List Char → List (List Char)
  | [] => [[]]
  | c :: cs =>
    if c = '\n' then [] :: pieces cs
    else match pieces cs with
      | [] => [[c]]
      | line :: lines => (c :: line) :: lines

/-- The line without a carriage return at its end. -/
def dropReturn (line : List Char) : List Char :=
  if line.getLast? = some '\r' then line.dropLast else line

/-- The lines of a text: each piece but the last ended in a newline. -/
def lines (s : String) : List String :=
  let all := pieces s.toList
  let ended := all.dropLast.map dropReturn
  let open_ := all.getLast?.getD []
  (if open_.isEmpty then ended else ended ++ [open_]).map String.ofList

/-! ### Input

Input arrives as bytes.  Its lines are read one by one, so bytes that are no text only
spoil the line that they stand in.
-/

/-- Splits bytes after every newline.  What follows the last newline is a line too, unless
it is empty. -/
def byteLines : List UInt8 → List (List UInt8)
  | [] => []
  | b :: bs =>
    if b = 10 then [b] :: byteLines bs
    else match byteLines bs with
      | [] => [[b]]
      | line :: lines => (b :: line) :: lines

/-- The lines of some input; nothing stands for a line that is no text. -/
def inputLines (input : ByteArray) : List (Option String) :=
  (byteLines input.toList).map fun line => String.fromUTF8? ⟨line.toArray⟩

end FormulaPlot.Text
