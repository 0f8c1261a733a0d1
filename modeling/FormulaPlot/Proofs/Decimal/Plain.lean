/-
The plain text of a number.

The plain layout never writes a power of ten.  It writes numerals all the same, so every number
reads back from its plain text, and what is no finite number is written as a word that is read
too.  There is no space in such a text, and it keeps to its line.
-/
import FormulaPlot.Proofs.Decimal.Literal

namespace FormulaPlot.Decimal

theorem numeral_plain (x : Binary) :
    Numeral (Layout.plain.writeMagnitude x).toList x.shortest.value := by
  have hending : Layout.plain.wholeEnding.toList = pointed (List.replicate 0 '0') := by decide
  exact numeral_point hending _

/-- A number is not finite, or is zero, or has a magnitude. -/
theorem special_or_finite (f : Float) :
    f ∈ [nan, infinity, -infinity, 0, -0] ∨
      f.isFinite = true ∧ (Binary.ofFloat f).mantissa ≠ 0 := by
  by_cases hnan : f.isNaN = true
  · left
    rw [eq_nan hnan]
    exact List.mem_cons_self
  by_cases hinf : f.isInf = true
  · left
    rw [eq_infinity hinf]
    split <;> simp
  by_cases hmantissa : (Binary.ofFloat f).mantissa = 0
  · left
    rcases eq_zero_of_mantissa hmantissa with rfl | rfl <;> simp
  · right
    refine ⟨?_, hmantissa⟩
    rw [isFinite_eq, Bool.eq_false_iff.mpr hnan, Bool.eq_false_iff.mpr hinf]
    rfl

/-- Every number is read from its plain text. -/
theorem read?_plain (f : Float) : read? (plain f).toList = some f := by
  rcases special_or_finite f with hspecial | ⟨hfinite, hmantissa⟩
  · simp only [List.mem_cons, List.not_mem_nil, or_false] at hspecial
    rcases hspecial with rfl | rfl | rfl | rfl | rfl <;> decide +kernel
  · exact (write_finite numeral_plain hfinite hmantissa).2

/-! ### Texts without space -/

/-- A character that is neither a space nor part of a line end. -/
def isInk (c : Char) : Bool := c ≠ ' ' && c ≠ '\n' && c ≠ '\r'

theorem isInk_of_isDigit {c : Char} (h : c.isDigit = true) : isInk c = true := by
  have hspace : c ≠ ' ' := Token.ne_of_class h (by decide)
  have hline : c ≠ '\n' := Token.ne_of_class h (by decide)
  have hreturn : c ≠ '\r' := Token.ne_of_class h (by decide)
  simp [isInk, hspace, hline, hreturn]

theorem Numeral.isInk {cs : List Char} {v : ℚ} (h : Numeral cs v) :
    ∀ c ∈ cs, Decimal.isInk c = true := by
  intro c hc
  rw [← h.number] at hc
  rcases Token.mem_number hc with hdigit | hmark
  · exact isInk_of_isDigit hdigit
  · have hmarks : ['.', 'e', 'E', '+', '-'].all Decimal.isInk = true := by decide
    exact List.all_eq_true.mp hmarks c hmark

theorem isInk_plain (f : Float) : ∀ c ∈ (plain f).toList, isInk c = true := by
  rcases special_or_finite f with hspecial | ⟨hfinite, hmantissa⟩
  · simp only [List.mem_cons, List.not_mem_nil, or_false] at hspecial
    refine List.all_eq_true.mp ?_
    rcases hspecial with rfl | rfl | rfl | rfl | rfl <;> decide +kernel
  · rw [plain, (write_finite numeral_plain hfinite hmantissa).1]
    refine List.forall_mem_append.mpr ⟨List.all_eq_true.mp ?_, (numeral_plain _).isInk⟩
    split <;> decide

end FormulaPlot.Decimal
