/-
How the digits of a number are laid out as text.

Which digits are written is settled by `Binary.shortest`; a `Layout` only decides
where the point goes.  The program writes numbers in two ways: as they stand in a
formula, where a very large or very small number takes an exponent and every
number shows a point or an exponent, and as plain positional text for lists, plot
data and scripts.
-/
import FormulaPlot.Decimal.Shortest

namespace FormulaPlot.Decimal

/-- The choices left open once the digits are known. -/
structure Layout where
  /-- The exponents of the leading digit, from the first up to but not including the
  second, for which no exponent is written.  `none` means all. -/
  positional : Option (Int × Int)
  /-- Written after a whole number. -/
  wholeEnding : String

/-- A number as it stands in a formula: positional from `0.0001` up to `10^16`, and a
whole number ends in `.0`. -/
def Layout.literal : Layout := ⟨some (-4, 16), ".0"⟩

/-- A number as it stands in plot data and in lists: never an exponent, and a whole
number has no point. -/
def Layout.plain : Layout := ⟨none, ""⟩

/-- `n` zeros. -/
def zeros (n : Nat) : String := String.ofList (List.replicate n '0')

/-- The digits with the decimal point in its place. -/
def Layout.point (layout : Layout) (d : Scientific) : String :=
  let text := d.digits.repr
  let before := d.exponent + text.length
  if 0 ≤ d.exponent then text ++ zeros d.exponent.toNat ++ layout.wholeEnding
  else if 0 < before then
    String.ofList (text.toList.take before.toNat) ++ "." ++
      String.ofList (text.toList.drop before.toNat)
  else "0." ++ zeros (-before).toNat ++ text

/-- One digit before the point, the others after it, then the exponent. -/
def exponential (d : Scientific) : String :=
  match d.digits.repr.toList with
  | [] => ""
  | lead :: others =>
    let fraction := if others.isEmpty then "" else "." ++ String.ofList others
    let power := d.exponent + others.length
    lead.toString ++ fraction ++ "e" ++ power.repr

/-- Writes a positive finite magnitude. -/
def Layout.writeMagnitude (layout : Layout) (x : Binary) : String :=
  let d := x.shortest
  let leading := d.exponent + d.digits.repr.length - 1
  match layout.positional with
  | none => layout.point d
  | some (first, limit) =>
    if first ≤ leading ∧ leading < limit then layout.point d else exponential d

/-- Writes a float with the fewest digits that identify it. -/
def Layout.write (layout : Layout) (x : Float) : String :=
  if x.isNaN then "NaN"
  else
    let sign := if isNegative x then "-" else ""
    if x.isInf then sign ++ "inf"
    else if x == 0 then sign ++ "0" ++ layout.wholeEnding
    else sign ++ layout.writeMagnitude (Binary.ofFloat x)

/-- A number as text for a formula. -/
def literal (x : Float) : String := Layout.literal.write x

/-- A number as plain text. -/
def plain (x : Float) : String := Layout.plain.write x

/-- A float that is not negative, rounded to a whole number; a half goes to the even
neighbour. -/
def whole (x : Float) : String :=
  if x.isNaN then "NaN"
  else if x.isInf then "inf"
  else
    let ⟨mantissa, exponent, _⟩ := Binary.ofFloat x
    if 0 ≤ exponent then (mantissa * Nat.pow 2 exponent.toNat).repr
    else
      let unit := Nat.pow 2 (-exponent).toNat
      let below := mantissa / unit
      let twice := 2 * (mantissa % unit)
      let up := unit < twice ∨ unit = twice ∧ below % 2 = 1
      (if up then below + 1 else below).repr

end FormulaPlot.Decimal
