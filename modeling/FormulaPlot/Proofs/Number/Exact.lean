/-
Exact numbers.

Geometry is written over any type of scalars, and here they are the numbers of an ordered
field, together with what a float can be besides a number: the two infinities and NaN.  The
operations follow the rules for floats, but nothing is rounded and there is a single zero,
which counts as positive where a number is divided by it.
-/
import Mathlib
import FormulaPlot.Proofs.Number.Order

namespace FormulaPlot

/-- A number, an infinity or NaN. -/
inductive Exact (K : Type) where
  | finite (x : K)
  | infinite (negative : Bool)
  | nan

namespace Exact

variable {K : Type} [Field K] [LinearOrder K] [FloorRing K]

/-! ### Operations -/

/-- The number with the other sign. -/
def neg : Exact K → Exact K
  | finite x => finite (-x)
  | infinite s => infinite !s
  | nan => nan

/-- The sum; infinities of different signs have none. -/
def add : Exact K → Exact K → Exact K
  | finite x, finite y => finite (x + y)
  | finite _, infinite s => infinite s
  | infinite s, finite _ => infinite s
  | infinite s, infinite t => if s = t then infinite s else nan
  | _, _ => nan

/-- The product; zero has none with an infinity. -/
def mul : Exact K → Exact K → Exact K
  | finite x, finite y => finite (x * y)
  | finite x, infinite s => if x = 0 then nan else infinite (s ^^ decide (x < 0))
  | infinite s, finite x => if x = 0 then nan else infinite (s ^^ decide (x < 0))
  | infinite s, infinite t => infinite (s ^^ t)
  | _, _ => nan

/-- The quotient; there is none of two zeros or of two infinities. -/
def div : Exact K → Exact K → Exact K
  | finite x, finite y =>
    if y ≠ 0 then finite (x / y) else if x = 0 then nan else infinite (decide (x < 0))
  | finite _, infinite _ => finite 0
  | infinite s, finite y => infinite (s ^^ decide (y < 0))
  | _, _ => nan

/-- The first number is smaller; NaN is smaller than nothing. -/
def lt : Exact K → Exact K → Bool
  | finite x, finite y => x < y
  | finite _, infinite s => !s
  | infinite s, finite _ => s
  | infinite s, infinite t => s && !t
  | _, _ => false

/-- The first number is no larger; NaN is comparable to nothing. -/
def le : Exact K → Exact K → Bool
  | finite x, finite y => x ≤ y
  | finite _, infinite s => !s
  | infinite s, finite _ => s
  | infinite s, infinite t => s || !t
  | _, _ => false

/-- It is neither an infinity nor NaN. -/
def isFinite : Exact K → Bool
  | finite _ => true
  | _ => false

/-- The number without its sign. -/
def abs : Exact K → Exact K
  | finite x => finite |x|
  | infinite _ => infinite false
  | nan => nan

/-- The larger of two numbers, or the only one that is not NaN. -/
def larger : Exact K → Exact K → Exact K
  | nan, y => y
  | x, nan => x
  | x, y => if lt x y then y else x

/-- The whole number below. -/
def floor : Exact K → Exact K
  | finite x => finite ⌊x⌋
  | x => x

/-- The whole number above. -/
def ceil : Exact K → Exact K
  | finite x => finite ⌈x⌉
  | x => x

/-- The whole number without a fraction, kept within 64 bits. -/
def toInt64 : Exact K → Int
  | finite x => max (-2 ^ 63) (min (2 ^ 63 - 1) (if 0 ≤ x then ⌊x⌋ else ⌈x⌉))
  | infinite s => if s then -2 ^ 63 else 2 ^ 63 - 1
  | nan => 0

instance : Scalar (Exact K) where
  add := add
  sub x y := add x (neg y)
  mul := mul
  div := div
  neg := neg
  zero := finite 0
  one := finite 1
  half := finite (1 / 2)
  lt := lt
  le := le
  isFinite := isFinite
  abs := abs
  larger := larger
  floor := floor
  ceil := ceil
  toInt64 := toInt64
  ofInt n := finite n

/-! ### Operations on numbers -/

variable (x y : K) (n : Int)

@[simp] theorem finite_add : (finite x + finite y : Exact K) = finite (x + y) := rfl

@[simp] theorem finite_sub : (finite x - finite y : Exact K) = finite (x - y) :=
  congrArg finite (sub_eq_add_neg x y).symm

@[simp] theorem finite_mul : (finite x * finite y : Exact K) = finite (x * y) := rfl

variable {x y} in
theorem finite_div (hy : y ≠ 0) : (finite x / finite y : Exact K) = finite (x / y) := if_pos hy

@[simp] theorem zero_eq : (Scalar.zero : Exact K) = finite 0 := rfl

@[simp] theorem one_eq : (Scalar.one : Exact K) = finite 1 := rfl

@[simp] theorem half_eq : (Scalar.half : Exact K) = finite (1 / 2) := rfl

@[simp] theorem ofInt_eq : (Scalar.ofInt n : Exact K) = finite (n : K) := rfl

@[simp] theorem abs_finite : Scalar.abs (finite x : Exact K) = finite |x| := rfl

@[simp] theorem isFinite_finite : Scalar.isFinite (finite x : Exact K) = true := rfl

@[simp] theorem lt_finite : Scalar.lt (finite x : Exact K) (finite y) = true ↔ x < y :=
  decide_eq_true_iff

@[simp] theorem le_finite : Scalar.le (finite x : Exact K) (finite y) = true ↔ x ≤ y :=
  decide_eq_true_iff

theorem exists_of_isFinite {x : Exact K} (h : Scalar.isFinite x = true) : ∃ y, x = finite y := by
  cases x with
  | finite y => exact ⟨y, rfl⟩
  | _ => cases h

/-! ### The order -/

variable {a b c : Exact K}

theorem lt_trans (hab : Scalar.lt a b = true) (hbc : Scalar.lt b c = true) :
    Scalar.lt a c = true := by
  rcases a with x | s | _ <;> rcases b with y | t | _ <;> rcases c with z | u | _ <;>
    simp_all [Scalar.lt, lt]
  exact hab.trans hbc

theorem le_trans (hab : Scalar.le a b = true) (hbc : Scalar.le b c = true) :
    Scalar.le a c = true := by
  rcases a with x | s | _ <;> rcases b with y | t | _ <;> rcases c with z | u | _ <;>
    simp_all [Scalar.le, le]
  · exact hab.trans hbc
  · cases t
    · exact .inr (hbc.resolve_left (by decide))
    · exact .inl (hab.resolve_right (by decide))

theorem not_le_of_lt (h : Scalar.lt a b = true) : Scalar.le b a = false := by
  rcases a with x | s | _ <;> rcases b with y | t | _ <;> simp_all [Scalar.lt, Scalar.le, lt, le]

theorem le_of_lt (h : Scalar.lt a b = true) : Scalar.le a b = true := by
  rcases a with x | s | _ <;> rcases b with y | t | _ <;> simp_all [Scalar.lt, Scalar.le, lt, le]
  exact h.le

theorem ne_nan_of_lt (h : Scalar.lt a b = true) : a ≠ nan ∧ b ≠ nan := by
  rcases a with x | s | _ <;> rcases b with y | t | _ <;> simp_all [Scalar.lt, lt]

/-- Every number but NaN is equal to itself. -/
theorem le_self (h : a ≠ nan) : Scalar.le a a = true := by
  rcases a with x | s | _
  · exact le_finite x x |>.mpr le_rfl
  · cases s <;> rfl
  · exact absurd rfl h

/-- Numbers that are not NaN are ordered one way or the other. -/
theorem lt_or_le (ha : a ≠ nan) (hb : b ≠ nan) : Scalar.lt a b = true ∨ Scalar.le b a = true := by
  rcases a with x | s | _ <;> rcases b with y | t | _ <;> simp_all [Scalar.lt, Scalar.le, lt, le]
  · exact lt_or_ge x y
  all_goals cases s <;> simp

instance : Scalar.Ordered (Exact K) where
  lt_trans := lt_trans
  le_left h := le_self (ne_nan_of_lt h).1
  le_right h := le_self (ne_nan_of_lt h).2
  not_le := not_le_of_lt

theorem larger_eq (ha : a ≠ nan) (hb : b ≠ nan) :
    Scalar.larger a b = if Scalar.lt a b then b else a := by
  rcases a with x | s | _ <;> rcases b with y | t | _ <;> first | rfl | contradiction

/-- The larger number is no less than either. -/
theorem le_larger (ha : a ≠ nan) (hb : b ≠ nan) :
    Scalar.le a (Scalar.larger a b) = true ∧ Scalar.le b (Scalar.larger a b) = true := by
  rw [larger_eq ha hb]
  by_cases hlt : Scalar.lt a b = true
  · rw [if_pos hlt]
    exact ⟨le_of_lt hlt, le_self hb⟩
  · rw [if_neg hlt]
    exact ⟨le_self ha, (lt_or_le ha hb).resolve_left hlt⟩

end Exact

end FormulaPlot
