/-
The order of floats.

Comparing floats compares their signs first, then their exponents and then their
significands.  `rank` puts the three into one key, and without NaN one float is smaller than
another exactly if its key is.  So the order of floats is a linear order but for NaN, which
is not even equal to itself, and for the two zeros.

`Scalar.Ordered` is what geometry needs to know about an order of this kind.
-/
import Mathlib
import FormulaPlot.Scalar

namespace FormulaPlot

open Float.Model (UnpackedFloat)
open Float.Model.UnpackedFloat (Sign)

/-! ### Keys -/

/-- The key of a number: the class of its sign, then its exponent and its significand, which
count the other way for negative numbers. -/
def rank : UnpackedFloat → ℤ ×ₗ ℤ ×ₗ ℤ
  | .infinity .negative => toLex (-2, toLex (0, 0))
  | .finite .negative m e _ => toLex (-1, toLex (-e, -m))
  | .zero _ | .notANumber => toLex (0, toLex (0, 0))
  | .finite .positive m e _ => toLex (1, toLex (e, m))
  | .infinity .positive => toLex (2, toLex (0, 0))

theorem lt_iff_rank (a b : UnpackedFloat) :
    a.lt b = true ↔ a.isNaN = false ∧ b.isNaN = false ∧ rank a < rank b := by
  have hsign : compare Sign.negative Sign.positive = .lt := by decide
  rcases a with s | _ | s | ⟨s, m, e, hm⟩ <;> rcases b with t | _ | t | ⟨t, n, f, hn⟩ <;>
    first | (cases s <;> cases t) | cases s | cases t | skip
  all_goals
    simp [UnpackedFloat.lt, UnpackedFloat.compare, UnpackedFloat.isNaN, rank, hsign,
      Prod.Lex.toLex_lt_toLex, Ordering.then_eq_lt, Ordering.then_eq_gt, Int.compare_eq_lt,
      Int.compare_eq_gt, Nat.compare_eq_lt, Nat.compare_eq_gt]

theorem compare_swap (a b : UnpackedFloat) : b.compare a = (a.compare b).map Ordering.swap := by
  have hsign : ∀ s t : Sign, compare t s = (compare s t).swap := by decide
  rcases a with s | _ | s | ⟨s, m, e, hm⟩ <;> rcases b with t | _ | t | ⟨t, n, f, hn⟩ <;>
    first | (cases s <;> cases t) | cases s | cases t | skip
  all_goals
    simp [UnpackedFloat.compare, ← hsign, Ordering.swap_then, Int.compare_swap, Nat.compare_swap]

theorem le_self {a : UnpackedFloat} (h : a.isNaN = false) : a.le a = true := by
  have hsign : ∀ s : Sign, compare s s = .eq := by decide
  rcases a with s | _ | s | ⟨s, m, e, hm⟩
  · simp [UnpackedFloat.le, UnpackedFloat.compare, hsign]
  · cases h
  · rfl
  · cases s <;> simp [UnpackedFloat.le, UnpackedFloat.compare]

theorem not_le_of_lt {a b : UnpackedFloat} (h : a.lt b = true) : b.le a = false := by
  have hlt : a.compare b = some .lt := by simpa [UnpackedFloat.lt] using h
  rw [UnpackedFloat.le, compare_swap, hlt]
  rfl

theorem le_of_lt {a b : UnpackedFloat} (h : a.lt b = true) : a.le b = true := by
  have hlt : a.compare b = some .lt := by simpa [UnpackedFloat.lt] using h
  rw [UnpackedFloat.le, hlt]
  rfl

/-! ### Ordered numbers -/

/-- What is smaller comes before, and only numbers that are equal to themselves are compared. -/
class Scalar.Ordered (α : Type) [Scalar α] : Prop where
  lt_trans : ∀ {a b c : α}, lt a b = true → lt b c = true → lt a c = true
  le_left : ∀ {a b : α}, lt a b = true → le a a = true
  le_right : ∀ {a b : α}, lt a b = true → le b b = true
  not_le : ∀ {a b : α}, lt a b = true → le b a = false

theorem scalar_lt_iff (a b : Float) :
    Scalar.lt a b = true ↔ a.toModel.unpack.lt b.toModel.unpack = true := by
  show decide (a.lt b = true) = true ↔ _
  rw [decide_eq_true_iff]
  exact decide_eq_true_iff

theorem scalar_le_iff (a b : Float) :
    Scalar.le a b = true ↔ a.toModel.unpack.le b.toModel.unpack = true := by
  show decide (a.le b = true) = true ↔ _
  rw [decide_eq_true_iff]
  exact decide_eq_true_iff

theorem scalar_le_of_lt {a b : Float} (h : Scalar.lt a b = true) : Scalar.le a b = true :=
  (scalar_le_iff a b).mpr (le_of_lt ((scalar_lt_iff a b).mp h))

instance : Scalar.Ordered Float where
  lt_trans {a b c} hab hbc := by
    rw [scalar_lt_iff, lt_iff_rank] at *
    exact ⟨hab.1, hbc.2.1, hab.2.2.trans hbc.2.2⟩
  le_left {a b} h := by
    rw [scalar_lt_iff, lt_iff_rank] at h
    rw [scalar_le_iff]
    exact le_self h.1
  le_right {a b} h := by
    rw [scalar_lt_iff, lt_iff_rank] at h
    rw [scalar_le_iff]
    exact le_self h.2.1
  not_le {a b} h := by
    rw [scalar_lt_iff] at h
    rw [← Bool.not_eq_true, scalar_le_iff, not_le_of_lt h]
    exact Bool.false_ne_true

end FormulaPlot
