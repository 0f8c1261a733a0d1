/-
Numbers read from text.

Two grammars: a real number as it is typed on the command line or at a prompt, and
the number of a formula in a list.  A refused text comes with the reason that is
shown to the user.
-/
import FormulaPlot.Decimal.Binary

namespace FormulaPlot.Decimal

/-- The value of decimal digits, most significant first. -/
def digitsValue (cs : List Char) : Nat :=
  cs.foldl (fun n c => 10 * n + (c.toNat - '0'.toNat)) 0

/-- The float nearest to `digits * 10 ^ exponent`.  Far outside the range of floats
the answer is known from the number of digits alone. -/
def nearest (digits : Nat) (exponent : Int) : Float :=
  let leading := exponent + digits.repr.length
  if digits = 0 ∨ leading < -400 then 0
  else if 400 < leading then infinity
  else Float.ofScientific digits (exponent < 0) exponent.natAbs

/-- The exponent part `e` or `E`, an optional sign and digits; nothing at all stands
for zero. -/
def readExponent? : List Char → Option Int
  | [] => some 0
  | mark :: cs =>
    if mark ≠ 'e' ∧ mark ≠ 'E' then none
    else
      let digits := match cs with
        | '+' :: rest => rest
        | '-' :: rest => rest
        | _ => cs
      if digits.isEmpty ∨ !digits.all Char.isDigit then none
      else if cs.head? = some '-' then some (-(digitsValue digits : Int))
      else some (digitsValue digits)

/-- Digits with an optional point, at least one digit in all, and an optional
exponent. -/
def readUnsigned? (cs : List Char) : Option Float :=
  let whole := cs.takeWhile Char.isDigit
  let afterWhole := cs.dropWhile Char.isDigit
  let (fraction, rest) := match afterWhole with
    | '.' :: tail => (tail.takeWhile Char.isDigit, tail.dropWhile Char.isDigit)
    | _ => ([], afterWhole)
  if whole.isEmpty ∧ fraction.isEmpty then none
  else do
    let exponent ← readExponent? rest
    return nearest (digitsValue (whole ++ fraction)) (exponent - fraction.length)

/-- The number of a text without a sign: a word, in any case, or digits. -/
def readMagnitude? (cs : List Char) : Option Float :=
  let word := cs.map Char.toLower
  if word = "inf".toList ∨ word = "infinity".toList then some infinity
  else if word = "nan".toList then some nan
  else readUnsigned? cs

/-- A real number with an optional sign. -/
def read? : List Char → Option Float
  | '-' :: cs => (readMagnitude? cs).map (- ·)
  | '+' :: cs => readMagnitude? cs
  | cs => readMagnitude? cs

/-- Why a text is not a number. -/
inductive Refusal where
  | noReal
  | badReal
  | noIndex
  | badIndex
  | largeIndex

/-- The reason as shown to the user. -/
def Refusal.message : Refusal → String
  | noReal => "cannot parse float from empty string"
  | badReal => "invalid float literal"
  | noIndex => "cannot parse integer from empty string"
  | badIndex => "invalid digit found in string"
  | largeIndex => "number too large to fit in target type"

/-- Reads a real number. -/
def readReal (text : String) : Except Refusal Float :=
  if text.isEmpty then .error .noReal
  else match read? text.toList with
    | some x => .ok x
    | none => .error .badReal

/-- Reads digits one by one onto `n`, and stops at the first that is no digit or that
takes the number out of 64 bits. -/
def readDigits : (n : Nat) → List Char → Except Refusal Nat
  | n, [] => .ok n
  | n, c :: cs =>
    if !c.isDigit then .error .badIndex
    else
      let next := 10 * n + (c.toNat - '0'.toNat)
      if next < 2 ^ 64 then readDigits next cs else .error .largeIndex

/-- Reads a number of at most 64 bits, with an optional plus sign. -/
def readIndex (text : String) : Except Refusal Nat :=
  match text.toList with
  | [] => .error .noIndex
  | ['+'] => .error .badIndex
  | '+' :: cs => readDigits 0 cs
  | cs => readDigits 0 cs

end FormulaPlot.Decimal
