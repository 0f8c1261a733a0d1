/-
From characters to tokens.

Each class of token is a function that returns the longest lexeme of that class at
the start of the text, empty if there is none.  The first character tells the
classes apart, so the tokenizer only has to ask them in turn.  `tokenize` repeats
that after the spaces in between; every token but the last takes at least one
character, so it ends by the length of the text.
-/
import FormulaPlot.Token.Basic
import FormulaPlot.Decimal.Reading

namespace FormulaPlot.Token

/-! ### Lexemes -/

/-- The space allowed between tokens. -/
def isSpace (c : Char) : Bool := c = ' ' || c = '\t' || c = '\r'

/-- A character that an identifier may start with. -/
def startsIdent (c : Char) : Bool := c.isAlpha || c = '_'

/-- A character that may follow in an identifier. -/
def continuesIdent (c : Char) : Bool := c.isAlphanum || c = '_'

/-- The longest run of digits at the start. -/
def digits (cs : List Char) : List Char := cs.takeWhile Char.isDigit

/-- A point with at least one digit after it. -/
def fraction : List Char → List Char
  | '.' :: cs => if (digits cs).isEmpty then [] else '.' :: digits cs
  | _ => []

/-- A sign at the start. -/
def sign : List Char → List Char
  | '+' :: _ => ['+']
  | '-' :: _ => ['-']
  | _ => []

/-- An exponent with at least one digit. -/
def exponent : List Char → List Char
  | [] => []
  | c :: cs =>
    let mark := sign cs
    let power := digits (cs.drop mark.length)
    if (c = 'e' ∨ c = 'E') ∧ power ≠ [] then c :: (mark ++ power) else []

/-- The longest number at the start: digits before or after a point, then perhaps an
exponent.  A point without a digit after it does not belong to the number. -/
def number (cs : List Char) : List Char :=
  let whole := digits cs
  let part := fraction (cs.drop whole.length)
  if whole = [] ∧ part = [] then []
  else whole ++ part ++ exponent (cs.drop (whole.length + part.length))

/-- The longest identifier at the start. -/
def ident : List Char → List Char
  | [] => []
  | c :: cs => if startsIdent c then c :: cs.takeWhile continuesIdent else []

/-- The formula ends here. -/
def atFinish : List Char → Bool
  | [] => true
  | c :: _ => c = '\n' || c = ';'

/-! ### One token -/

/-- What stands at the start of a text without leading space, and its characters. -/
def scan (cs : List Char) : Kind × List Char :=
  if atFinish cs then (.finish, [])
  else if number cs ≠ [] then
    match Decimal.read? (number cs) with
    | some value => (.number value, number cs)
    | none => (.invalid .invalidNumber, number cs)
  else if ident cs ≠ [] then (.ident (String.ofList (ident cs)), ident cs)
  else match Symbol.leading? cs with
    | some s => (.symbol s, s.text.toList)
    | none => (.invalid .invalidChar, cs.take 1)

/-- The first token of a text that stands after `start` bytes and `column - 1`
characters of its line, and the text after the token. -/
def next (start column : Nat) (cs : List Char) : Token × List Char :=
  let space := cs.takeWhile isSpace
  let text := cs.dropWhile isSpace
  let (kind, lexeme) := scan text
  (⟨kind, String.ofList lexeme, start + space.length, column + space.length⟩,
   text.drop lexeme.length)

/-! ### All tokens -/

/-- Unless the text is finished, a lexeme has at least one character. -/
theorem scan_ne_nil {cs : List Char} {kind : Kind} {lexeme : List Char}
    (h : scan cs = (kind, lexeme)) : kind = .finish ∨ lexeme ≠ [] := by
  unfold scan at h
  split at h
  · left; simp_all
  · rename_i open_
    right
    split at h
    · split at h <;> simp_all
    · split at h
      · simp_all
      · split at h
        · rw [← (Prod.mk.inj h).2]; exact Symbol.toList_text_ne_nil _
        · cases cs with
          | nil => simp [atFinish] at open_
          | cons c cs => rw [← (Prod.mk.inj h).2]; simp

/-- A token that is not the last takes at least one character. -/
theorem length_next_lt {start column : Nat} {cs : List Char}
    (h : (next start column cs).1.isLast = false) (hcs : cs ≠ []) :
    (next start column cs).2.length < cs.length := by
  have hdrop : (cs.dropWhile isSpace).length ≤ cs.length :=
    (List.dropWhile_sublist _).length_le
  obtain ⟨kind, lexeme, hscan⟩ : ∃ kind lexeme, scan (cs.dropWhile isSpace) = (kind, lexeme) :=
    ⟨_, _, rfl⟩
  have hpos : 0 < cs.length := List.length_pos_iff.2 hcs
  rcases scan_ne_nil hscan with rfl | hne
  · simp [next, hscan, isLast] at h
  · have := List.length_pos_iff.2 hne
    simp only [next, hscan, List.length_drop]
    omega

/-- The tokens of a line, up to and including the first that is the last. -/
def tokenizeFrom (start column : Nat) (cs : List Char) : List Token :=
  let step := next start column cs
  if _h : step.1.isLast = true ∨ cs = [] then [step.1]
  else
    let t := step.1
    t :: tokenizeFrom (t.start + t.size) (t.column + t.lexeme.length) step.2
termination_by cs.length
decreasing_by
  obtain ⟨hlast, hcs⟩ := not_or.1 _h
  exact length_next_lt (by simpa using hlast) hcs

/-- The tokens of a text. -/
def tokenize (s : String) : List Token := tokenizeFrom 0 1 s.toList

/-- The characters in the first `bytes` bytes, and those after them. -/
def splitBytes : (bytes : Nat) → List Char → List Char × List Char
  | 0, cs => ([], cs)
  | _, [] => ([], [])
  | bytes + 1, c :: cs =>
    let (before, after) := splitBytes (bytes + 1 - c.utf8Size) cs
    (c :: before, after)
termination_by _ cs => cs

/-- The first token of a text from a byte position on. -/
def nextAt (s : String) (position : Nat) : Token :=
  let (before, after) := splitBytes position s.toList
  (next position (before.length + 1) after).1

end FormulaPlot.Token
